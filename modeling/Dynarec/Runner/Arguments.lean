import Dynarec.Guest.Basic
import Dynarec.Text.Hex

/-!
# Command line

A guest image and options, in any order. Every option may be given once. A value follows its option
as the next word, or after an equals sign; a word that begins with a dash is no value.
-/

namespace Dynarec.Runner

open Guest (Mode)

structure Arguments where
  image : String
  mode : Mode
  /-- Load address of the image. -/
  base : UInt64
  /-- Entry point, the load address unless given. -/
  entry : Option UInt64
  stackTop : UInt64
  stackSize : UInt64
  noTier : Bool
  maxBlock : Option Nat
  stats : Bool
deriving DecidableEq, Repr

inductive OptionName where
  | mode | base | entry | stackTop | stackSize | noTier | maxBlock | stats
deriving DecidableEq, Repr

namespace OptionName

def all : List OptionName := [mode, base, entry, stackTop, stackSize, noTier, maxBlock, stats]

def name : OptionName → String
  | mode => "mode"
  | base => "base"
  | entry => "entry"
  | stackTop => "stack-top"
  | stackSize => "stack-size"
  | noTier => "no-tier"
  | maxBlock => "max-block"
  | stats => "stats"

def letter? : OptionName → Option Char
  | mode => some 'm'
  | _ => none

def takesValue : OptionName → Bool
  | noTier | stats => false
  | _ => true

end OptionName

/-- A word of the command line, or an option with its value. -/
inductive Item where
  | word (text : String)
  | option (name : OptionName) (value : Option String)
deriving DecidableEq, Repr

def splitValue (cs : List Char) : String × Option String :=
  match cs.span (· != '=') with
  | (name, _ :: value) => (String.ofList name, some (String.ofList value))
  | (name, []) => (String.ofList name, none)

/-- Give an option the value that stands with it, else the next word. The result has the words that
are left. -/
def takeValue (name : OptionName) (value? : Option String) (rest : List String) :
    Option (Item × List String) :=
  match name.takesValue, value?, rest with
  | false, none, rest => some (.option name none, rest)
  | false, some _, _ => none
  | true, some value, rest => some (.option name (some value), rest)
  | true, none, value :: rest =>
    if value.startsWith "-" then none else some (.option name (some value), rest)
  | true, none, [] => none

/-- Read an item that begins with `word`. -/
def readItem (word : List Char) (rest : List String) : Option (Item × List String) :=
  match word with
  | '-' :: '-' :: long =>
    let (name, value?) := splitValue long
    (OptionName.all.find? (·.name == name)).bind fun o => takeValue o value? rest
  | '-' :: letter :: value =>
    (OptionName.all.find? (·.letter? == some letter)).bind fun o =>
      takeValue o
        (match value with
          | [] => none
          | '=' :: value => some (String.ofList value)
          | value => some (String.ofList value)) rest
  | word => some (.word (String.ofList word), rest)

/-- Read all items. After `--` every word stands for itself. `fuel` bounds their number. -/
def readItems : (fuel : Nat) → List String → Option (List Item)
  | _, [] => some []
  | 0, _ => none
  | fuel + 1, word :: rest =>
    if word = "--" then some (rest.map .word)
    else do
      let (item, rest) ← readItem word.toList rest
      return item :: (← readItems fuel rest)

/-! ### Values -/

def mode? : String → Option Mode
  | "a64" => some .a64
  | "a32" => some .a32
  | _ => none

/-- An address: decimal, or hexadecimal after `0x`. -/
def address? (text : String) : Option UInt64 :=
  let value? := match text.toList with
    | '0' :: 'x' :: digits | '0' :: 'X' :: digits =>
      Text.unsigned? 16 UInt64.size (String.ofList digits)
    | _ => Text.unsigned? 10 UInt64.size text
  value?.map Nat.toUInt64

/-- The value of an option, read by `parse`. Fails if it is malformed, or the option is repeated. -/
def valueOf {α : Type} (items : List Item) (name : OptionName) (parse : String → Option α) :
    Option (Option α) :=
  match items.filterMap fun
    | .option n value => if n = name then some (value.getD "") else none
    | .word _ => none with
  | [] => some none
  | [text] => (parse text).map some
  | _ => none

def words (items : List Item) : List String :=
  items.filterMap fun
    | .word text => some text
    | .option _ _ => none

def Arguments.parse (args : List String) : Option Arguments := do
  let items ← readItems args.length args
  let [image] := words items | none
  return {
    image
    mode := (← valueOf items .mode mode?).getD .a64
    base := (← valueOf items .base address?).getD 0x10000
    entry := ← valueOf items .entry address?
    stackTop := (← valueOf items .stackTop address?).getD 0x800000
    stackSize := (← valueOf items .stackSize address?).getD 0x100000
    noTier := (← valueOf items .noTier some).isSome
    maxBlock := ← valueOf items .maxBlock (Text.unsigned? 10 UInt64.size)
    stats := (← valueOf items .stats some).isSome }

end Dynarec.Runner
