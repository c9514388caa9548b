import SlotArrays.Text.Quoted

/-! Dumps of values.

A `Doc` is the outline of a value: a text, a labelled part, or parts between two
brackets. It is laid out on one line (`flat`) or with every part on a line of its
own, four columns further in than what holds it (`tall`). Brackets around nothing
take one line in both. `Dump` gives a type its outline. -/
namespace SlotArrays

inductive Doc
  | atom (text : String)
  | labelled (label value : Doc)
  /-- Parts between brackets; on one line a `padded` group has a blank inside each. -/
  | group (start finish : String) (padded : Bool) (parts : List Doc)
deriving Inhabited

namespace Doc

/-! ### Common outlines -/

def list (items : List Doc) : Doc := group "[" "]" false items

def map (entries : List (Doc × Doc)) : Doc :=
  group "\x7b" "\x7d" false (entries.map fun entry => labelled entry.1 entry.2)

def record (name : String) (fields : List (String × Doc)) : Doc :=
  group (name ++ " \x7b") "\x7d" true (fields.map fun field => labelled (atom field.1) field.2)

/-- A value inside a named one. -/
def wrapped (name : String) (inner : Doc) : Doc := group (name ++ "(") ")" false [inner]

/-! ### On one line -/

mutual
def flat : Doc → String
  | atom text => text
  | labelled label value => label.flat ++ ": " ++ value.flat
  | group start finish padded parts =>
    let pad := if padded then " " else ""
    start ++ pad ++ ", ".intercalate (flatAll parts) ++ pad ++ finish

def flatAll : List Doc → List String
  | [] => []
  | part :: parts => part.flat :: flatAll parts
end

/-! ### One part a line -/

/-- Four columns further in, on every line. -/
def indent (text : String) : String :=
  "    " ++ String.ofList (text.toList.flatMap fun c =>
    if c = '\n' then "\n    ".toList else [c])

/-- Lines of their own for the parts, each with a comma behind it. -/
def block (start finish : String) (parts : List String) : String :=
  if parts.isEmpty then start ++ finish
  else start ++ "\n" ++ String.join (parts.map fun part => indent part ++ ",\n") ++ finish

mutual
def tall : Doc → String
  | atom text => text
  | labelled label value => label.tall ++ ": " ++ value.tall
  | group start finish _ parts => block start finish (tallAll parts)

def tallAll : List Doc → List String
  | [] => []
  | part :: parts => part.tall :: tallAll parts
end

end Doc

/-! ### Outlines of values -/

/-- Types whose values can be dumped. -/
class Dump (α : Type) where
  doc : α → Doc

instance : Dump Nat := ⟨fun n => .atom (toString n)⟩
instance : Dump Int := ⟨fun n => .atom (toString n)⟩
instance : Dump Int32 := ⟨fun n => .atom (toString n.toInt)⟩
instance : Dump Int64 := ⟨fun n => .atom (toString n.toInt)⟩
instance : Dump String := ⟨fun s => .atom (quoted s)⟩

instance {α : Type} [Dump α] : Dump (Option α) where
  doc
    | none => .atom "None"
    | some a => .wrapped "Some" (Dump.doc a)

end SlotArrays
