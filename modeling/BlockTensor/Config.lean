import BlockTensor.Cache
import BlockTensor.Pool.Global
import BlockTensor.Text.Quoted
import BlockTensor.Text.Word

/-!
# Engine settings

`EngineConfig.ofLookup` overlays the defaults with the variables that are set,
in a fixed order: threads, cache bytes, backend, native library. The first that
cannot be read is reported.
-/

namespace BlockTensor

/-- The backend tier that is asked for. -/
inductive Preference
  | auto
  | native
  | simd
  | reference
  deriving DecidableEq, Inhabited

namespace Preference

def name : Preference → String
  | auto => "auto"
  | native => "native"
  | simd => "simd"
  | reference => "reference"

/-- The tier of a lower-case name. -/
def ofName? : String → Option Preference
  | "auto" => some auto
  | "native" => some native
  | "simd" | "vector" => some simd
  | "reference" | "naive" | "scalar" | "cpu" => some reference
  | _ => none

/-- The tier that a text names, blanks and the case of ASCII letters aside. -/
def parse (s : String) : Outcome Preference :=
  let name := Text.lowerAscii (Text.trim s)
  match ofName? name with
  | some p => .ok p
  | none => .fail (.invalidConfig (.unknownPreference name))

theorem ofName?_name (p : Preference) : ofName? p.name = some p := by
  cases p <;> rfl

end Preference

/-- The settings of an engine. Zero threads leave the number to the pool. -/
structure EngineConfig where
  threads : Nat
  cacheBytes : Nat
  backend : Preference
  nativeLibrary : Option String
  deriving DecidableEq

namespace EngineConfig

/-- The settings where no variable is set. -/
def default : EngineConfig := ⟨0, Cache.defaultCapacity, .auto, none⟩

/-- The number in a variable. -/
def readNumber (key value : String) : Outcome Nat :=
  match Text.readWord (Text.trim value).toList with
  | .ok n => .ok n
  | .error f => .fail (.invalidConfig (.badNumber key (Text.quoted value) f.message))

/-- A setting read from its variable, or the default. -/
def overlay {β : Type} (value : Option String) (read : String → Outcome β) (default : β) :
    Outcome β :=
  match value with
  | some v => read v
  | none => .ok default

/-- The settings that variables make of the defaults. -/
def ofLookup (lookup : String → Option String) : Outcome EngineConfig := do
  let threads ← overlay (lookup "IR_THREADS") (readNumber "IR_THREADS") default.threads
  let cacheBytes ← overlay (lookup "IR_CACHE_BYTES") (readNumber "IR_CACHE_BYTES")
    default.cacheBytes
  let backend ← overlay (lookup "IR_BACKEND") Preference.parse default.backend
  let nativeLibrary := (lookup "IR_NATIVE_LIB").filter (· ≠ "")
  return ⟨threads, cacheBytes, backend, nativeLibrary⟩

/-- Set the size of the process-wide pool. -/
def apply (c : EngineConfig) : Update GlobalPool Unit := GlobalPool.configure c.threads

/-- A cache of the configured size. -/
def tensorCache {α : Type} (c : EngineConfig) : Cache α := Cache.empty c.cacheBytes

end EngineConfig

end BlockTensor
