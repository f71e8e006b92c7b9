import ScaleCodec.Lib.Stream
import Mathlib.Logic.Function.Basic

/-!
# Custom configs of a stream

With `CUSTOM_CONFIG_ENABLED` both streams are `Configurable`: they are constructed with configs,
which are looked up by type.  `ι` stands for `std::type_index`, and `El` for the values of a type.
-/

namespace ScaleCodec

/-- `std::runtime_error`, which `outcomeCatch` does not catch. -/
inductive ConfigError
  /-- Stream was not configured by such custom config type -/
  | notConfigured
  /-- Stream can be configured by different custom config types only -/
  | notDifferent
  deriving DecidableEq, Repr

/-- `Configurable`. -/
structure Configurable {ι : Type} (El : ι → Type) where
  /-- `configs_`, an `std::unordered_map` -/
  configs : ∀ c, Option (El c)

namespace Configurable

variable {ι : Type} {El : ι → Type}

theorem ext {s s' : Configurable El} (h : ∀ c, s.configs c = s'.configs c) : s = s' := by
  cases s
  cases s'
  congr 1
  exact funext h

/-- `getConfig`. -/
def getConfig (s : Configurable El) (c : ι) : Except ConfigError (El c) :=
  match s.configs c with
  | none => .error .notConfigured
  | some config => .ok config

/-- `addConfig`: `emplace` adds nothing where there is a config of the type. -/
def addConfig [DecidableEq ι] (s : Configurable El) (config : Σ c, El c) :
    Except ConfigError (Configurable El) :=
  if (s.configs config.1).isNone then
    .ok ⟨Function.update s.configs config.1 (some config.2)⟩
  else .error .notDifferent

/-- The constructor `Configurable(configs...)`. -/
def ofConfigs [DecidableEq ι] (configs : List (Σ c, El c)) :
    Except ConfigError (Configurable El) :=
  configs.foldlM addConfig ⟨fun _ => none⟩

end Configurable

end ScaleCodec
