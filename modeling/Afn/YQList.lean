import Afn.Access
import Afn.LinkedList

/-!
# The list

`yqlist.cpp`: a list of pointers is a chain of nodes from `malloc`, with the number of its elements. The answer of
each `malloc` is given: an address, or `none` when it fails. `nb_elt` is an `int`: a list has fewer
than 2^31 elements, as 2^31 nodes do not fit a 32-bit address space.
-/

namespace Afn

open Access LinkedList

structure YQList where
  cells : Cells Nat
  node : Nat
  nb_elt : Int

namespace YQList

/-! ## Memory -/

-- what a node holds is written before it is read
def malloc (cells : Cells Nat) : (answer : Option Nat) → Nat × Cells Nat
  | none => (0, cells)
  | some a => (a, Function.update cells a (some ⟨0, 0⟩))

def getNode (cells : Cells Nat) (a : Nat) : Except Fault (Node Nat) :=
  match cells a with
  | some n => .ok n
  | none => .error .null

def setNext (cells : Cells Nat) (a next : Nat) : Except Fault (Cells Nat) := do
  let n ← getNode cells a
  return Function.update cells a (some { n with next := next })

def setElement (cells : Cells Nat) (a element : Nat) : Except Fault (Cells Nat) := do
  let n ← getNode cells a
  return Function.update cells a (some { n with element := element })

def free (cells : Cells Nat) (a : Nat) : Except Fault (Cells Nat) :=
  match cells a with
  | some _ => .ok (Function.update cells a none)
  | none => .error .doubleFree

-- the node that the loops go to: `while (bound > i) { i++; ntmp = ntmp->next; }`
def nextLoop (cells : Cells Nat) (bound : Int) : (fuel : Nat) → (i : Int) → (ntmp : Nat) → Except Fault Nat
  | 0, _, _ => .error .outOfFuel
  | fuel + 1, i, ntmp =>
    if i < bound then do nextLoop cells bound fuel (i + 1) (← getNode cells ntmp).next
    else .ok ntmp

def nextBy (cells : Cells Nat) (bound : Int) (ntmp : Nat) : Except Fault Nat :=
  nextLoop cells bound (bound.toNat + 1) 0 ntmp

/-! ## Operations -/

def empty : YQList := ⟨fun _ => none, 0, 0⟩

def count (li : YQList) : Int := li.nb_elt

def insert (li : YQList) (Index : Int) (el : Nat) (answer : Option Nat) : Except Fault (Int × YQList) :=
  if li.nb_elt = 0 then
    let (node, cells) := malloc li.cells answer
    if node = 0 then .ok (-1, ⟨cells, node, li.nb_elt⟩)
    else do
      let cells ← setElement cells node el
      let cells ← setNext cells node 0
      return (li.nb_elt + 1, ⟨cells, node, li.nb_elt + 1⟩)
  else
    let Index := if Index = -1 ∨ li.nb_elt ≤ Index then li.nb_elt else Index
    let ntmp := li.node
    if Index = 0 then
      let (node, cells) := malloc li.cells answer
      if node = 0 then .ok (-1, ⟨cells, ntmp, li.nb_elt⟩)
      else do
        let cells ← setElement cells node el
        let cells ← setNext cells node ntmp
        return (li.nb_elt + 1, ⟨cells, node, li.nb_elt + 1⟩)
    else do
      let ntmp ← nextBy li.cells (Index - 1) ntmp
      if Index = li.nb_elt then
        let (new, cells) := malloc li.cells answer
        let cells ← setNext cells ntmp new
        if new = 0 then return (-1, ⟨cells, li.node, li.nb_elt⟩)
        else
          let cells ← setElement cells new el
          let cells ← setNext cells new 0
          return (li.nb_elt + 1, ⟨cells, li.node, li.nb_elt + 1⟩)
      else
        let nextnode := (← getNode li.cells ntmp).next
        let (new, cells) := malloc li.cells answer
        let cells ← setNext cells ntmp new
        if new = 0 then
          let cells ← setNext cells ntmp nextnode
          return (-1, ⟨cells, li.node, li.nb_elt⟩)
        else
          let cells ← setElement cells new el
          let cells ← setNext cells new nextnode
          return (li.nb_elt + 1, ⟨cells, li.node, li.nb_elt + 1⟩)

def add (li : YQList) (Item : Nat) (answer : Option Nat) : Except Fault (Int × YQList) :=
  let nPos := li.count
  li.insert nPos Item answer

def items (li : YQList) (pos : Int) : Except Fault Nat :=
  if pos < 0 ∨ li.nb_elt ≤ pos then .ok 0
  else do
    let ntmp ← nextBy li.cells pos li.node
    return (← getNode li.cells ntmp).element

def removeElement (li : YQList) (pos : Int) : Except Fault (Int × YQList) :=
  if pos < 0 ∨ li.nb_elt ≤ pos then .ok (-1, li)
  else
    let ntmp := li.node
    if pos = 0 then do
      let node := (← getNode li.cells ntmp).next
      let cells ← free li.cells ntmp
      return (li.nb_elt - 1, ⟨cells, node, li.nb_elt - 1⟩)
    else do
      let ntmp ← nextBy li.cells (pos - 1) ntmp
      let remnode := (← getNode li.cells ntmp).next
      let cells ← setNext li.cells ntmp (← getNode li.cells remnode).next
      let cells ← free cells remnode
      return (li.nb_elt - 1, ⟨cells, li.node, li.nb_elt - 1⟩)

/-! ## Calls -/

inductive Call
  | insert (Index : Int) (el : Nat) (answer : Option Nat)
  | add (Item : Nat) (answer : Option Nat)
  | removeElement (pos : Int)
  | items (pos : Int)
  | count

-- `Index >= -1`
def Call.Proper : Call → Prop
  | .insert Index _ _ => -1 ≤ Index
  | _ => True

def Call.answer : Call → Option Nat
  | .insert _ _ answer => answer
  | .add _ answer => answer
  | _ => none

inductive Result
  | int (n : Int)
  | ptr (p : Nat)
  deriving DecidableEq

def Call.run (li : YQList) : Call → Except Fault (Result × YQList)
  | .insert Index el answer => do
    let (n, li) ← li.insert Index el answer
    return (.int n, li)
  | .add Item answer => do
    let (n, li) ← li.add Item answer
    return (.int n, li)
  | .removeElement pos => do
    let (n, li) ← li.removeElement pos
    return (.int n, li)
  | .items pos => do return (.ptr (← li.items pos), li)
  | .count => .ok (.int li.count, li)

def runAll (li : YQList) : List Call → Except Fault (List Result × YQList)
  | [] => .ok ([], li)
  | c :: calls => do
    let (r, li) ← c.run li
    let (rs, li) ← li.runAll calls
    return (r :: rs, li)

end YQList

end Afn
