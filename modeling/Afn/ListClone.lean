import Afn.Loop
import Afn.YQList

/-!
# Copies of the elements of a list

`YQListAddResClone` of `yqlist.cpp`: the elements of a list are pointers to `YQRes`, of which copies are put behind
the elements of another list, or of the list itself.
-/

namespace Afn

open Access

namespace YQList

/-- `α` is what a `YQRes` holds; the assignment copies it as a whole. -/
structure Memory (L α : Type) where
  lists : L → YQList
  objects : Nat → Option α

/-- What is allocated for a copy: the address of the `YQRes`, and that of its node or `none` when `malloc` fails. -/
structure Answer where
  res : Nat
  node : Option Nat

def isEof (li : YQList) (i : Int) : Int := if i < li.nb_elt then 0 else 1

section
variable {L α : Type} [DecidableEq L]

def getRes (objects : Nat → Option α) (a : Nat) : Except Fault α :=
  match objects a with
  | some v => .ok v
  | none => .error .null

-- a turn of the loop; `answers pos` is for the copy that makes `pos` go on
def addResCloneTurn (this dst : L) (answers : Nat → Answer) :
    Memory L α × Nat → Except Fault ((Memory L α × Nat) ⊕ Memory L α)
  | (m, pos) =>
    if isEof (m.lists this) pos = 0 then do
      let data ← (m.lists this).items pos
      if data ≠ 0 then
        -- `new` throws when there is no memory
        let data2 := (answers pos).res
        if data2 ≠ 0 then
          let value ← getRes m.objects data
          let (_, li) ← (m.lists dst).add data2 (answers pos).node
          return .inl (⟨Function.update m.lists dst li, Function.update m.objects data2 (some value)⟩, pos + 1)
        else return .inl (m, pos)
      else return .inl (m, pos)
    else return .inr m

/-- `none` when the loop has not ended after `turns` turns. -/
def addResClone (turns : Nat) (this : L) (dst : Option L) (answers : Nat → Answer) (m : Memory L α) :
    Option (Except Fault (Int × Memory L α)) :=
  match dst with
  | none => some (.ok (-1, m))
  | some dst => (Loop.run (addResCloneTurn this dst answers) turns (m, 0)).map fun r => r.map fun m => (0, m)

end

end YQList

end Afn
