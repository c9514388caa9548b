import SlotArrays.Decimal.Layout
import SlotArrays.Text.Doc

/-! What a call may refuse.

A refusal is an answer: the call was allowed, and what it asked for is not there.
Each cause is a constructor, the wording is in `message`, and `doc` is the
outline under which a refusal is dumped. -/
namespace SlotArrays

inductive Refusal
  /-- The table holds no such key. -/
  | keyNotFound
  /-- The ring holds nothing to take. -/
  | empty
  /-- There is no key to hash. -/
  | missingKey
  /-- A load factor has to be above 0 and at most 1. -/
  | invalidLoadFactor (given : Single)
deriving DecidableEq

namespace Refusal

def name : Refusal → String
  | keyNotFound => "KeyNotFound"
  | empty => "Empty"
  | missingKey => "MissingKey"
  | invalidLoadFactor _ => "InvalidLoadFactor"

def message : Refusal → String
  | keyNotFound => "key not found"
  | empty => "queue is empty"
  | missingKey => "cannot hash a missing key"
  | invalidLoadFactor given => "load factor " ++ given.text .plain ++ " is outside (0, 1]"

def doc (r : Refusal) : Doc :=
  match r with
  | invalidLoadFactor given => .wrapped r.name (.atom (given.text .ranged))
  | _ => .atom r.name

/-- The refusal behind a refusal. There never is one. -/
def cause (_ : Refusal) : Option Refusal := none

/-- The same cause, load factors compared as numbers: one that is no number differs
from itself. -/
def agrees : Refusal → Refusal → Bool
  | invalidLoadFactor x, invalidLoadFactor y => x.equals y
  | a, b => a == b

end Refusal
end SlotArrays
