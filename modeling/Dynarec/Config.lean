import Dynarec.Guest.Basic
import Dynarec.Text.Hex

/-!
# Configuration

Settings of the recompiler. The setters keep every value in the range where it makes sense; settings
read from the environment are skipped if they are malformed.
-/

namespace Dynarec

open Guest (Mode)

structure Config where
  mode : Mode
  /-- Bytes reserved for generated code. -/
  arenaSize : Nat
  /-- Greatest number of guest instructions in a block. -/
  maxBlock : Nat
  /-- Whether blocks are compiled fast first and again when they are called often. -/
  tiered : Bool
  /-- Calls after which a block is compiled again. -/
  rejitThreshold : UInt64
  /-- Whether blocks are compiled again apart from the guest thread. -/
  background : Bool
  /-- Dispatches between two looks at the host. -/
  syncInterval : Nat
  /-- How often a block is compiled anew because its code changed meanwhile. -/
  maxRetries : Nat
deriving DecidableEq, Repr

namespace Config

def ofMode (mode : Mode) : Config where
  mode
  arenaSize := 0x4000000
  maxBlock := 256
  tiered := true
  rejitThreshold := 1000
  background := true
  syncInterval := 1024
  maxRetries := 8

instance : Inhabited Config := ⟨ofMode .a64⟩

def withArenaSize (c : Config) (bytes : Nat) : Config := { c with arenaSize := bytes }

def withMaxBlock (c : Config) (count : Nat) : Config := { c with maxBlock := max count 1 }

def withTiered (c : Config) (tiered : Bool) : Config := { c with tiered }

def withRejitThreshold (c : Config) (calls : UInt64) : Config :=
  { c with rejitThreshold := max calls 1 }

def withBackground (c : Config) (background : Bool) : Config := { c with background }

def withSyncInterval (c : Config) (dispatches : Int) : Config :=
  { c with syncInterval := (max dispatches 1).toNat }

/-! ### Settings from the environment -/

/-- Blank characters that may surround a setting. -/
def isBlank (c : Char) : Bool :=
  (9 ≤ c.toNat && c.toNat ≤ 13) || c.toNat == 0x20 || c.toNat == 0x85 || c.toNat == 0xa0
    || c.toNat == 0x1680 || (0x2000 ≤ c.toNat && c.toNat ≤ 0x200a) || c.toNat == 0x2028
    || c.toNat == 0x2029 || c.toNat == 0x202f || c.toNat == 0x205f || c.toNat == 0x3000

def trim (text : String) : String :=
  String.ofList ((text.toList.dropWhile isBlank).reverse.dropWhile isBlank).reverse

def mode? (text : String) : Option Mode :=
  match String.ofList (text.toList.map Char.toLower) with
  | "a64" | "aarch64" => some .a64
  | "a32" | "arm" | "aarch32" => some .a32
  | _ => none

def bool? : String → Option Bool
  | "true" => some true
  | "false" => some false
  | _ => none

/-- Apply a setting if it is there and well-formed. -/
def override {α : Type} (value? : Option α) (set : Config → α → Config) (c : Config) : Config :=
  match value? with
  | some value => set c value
  | none => c

def settingNames : List String :=
  ["ARMJIT_MODE", "ARMJIT_ARENA_SIZE", "ARMJIT_MAX_BLOCK", "ARMJIT_TIERED",
    "ARMJIT_REJIT_THRESHOLD", "ARMJIT_BACKGROUND_REJIT", "ARMJIT_SYNC_INTERVAL"]

/-- The default configuration with the settings found by `lookup`. -/
def ofEnvironment (lookup : String → Option String) : Config :=
  let setting {α : Type} (key : String) (parse : String → Option α) : Option α :=
    (lookup key).bind fun text => parse (trim text)
  let size := Text.unsigned? 10 UInt64.size
  (default : Config)
    |> override ((lookup "ARMJIT_MODE").bind mode?) ({ · with mode := · })
    |> override (setting "ARMJIT_ARENA_SIZE" size) withArenaSize
    |> override (setting "ARMJIT_MAX_BLOCK" size) withMaxBlock
    |> override (setting "ARMJIT_TIERED" bool?) withTiered
    |> override ((setting "ARMJIT_REJIT_THRESHOLD" size).map Nat.toUInt64) withRejitThreshold
    |> override (setting "ARMJIT_BACKGROUND_REJIT" bool?) withBackground
    |> override (setting "ARMJIT_SYNC_INTERVAL" (Text.signed? 0x80000000)) withSyncInterval

end Config

end Dynarec
