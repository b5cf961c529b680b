import Afn.YQListSound

/-!
# The data list of several threads

`TYQDataList` of `YQDataListu.h`: a list of pointers to data. What a thread does under the lock is one step, and so are
the assignment of `WriteData`, which comes after the lock, and the return of `ReadData`. The list `FDatas` is the
sequence that a `YQList` represents.
-/

namespace Afn

namespace TYQDataList

/-- Where a thread is: `WriteData` has got the new object, or `ReadData` has taken the object out. -/
inductive Place (α : Type)
  | outside
  | assigning (PData : Nat) (Data : α)
  | returning (Data : Nat)

/-- `objects` is the heap of the data, where an address is used once. `written`, `removed` and `returned` record the
data that `WriteData` was called with, the objects that were taken out, and the objects that `ReadData` returned with
what they held. -/
structure State (T α : Type) where
  FDatas : List Nat
  objects : Nat → Option α
  next : Nat
  thr : T → Place α
  written : List α
  removed : List Nat
  returned : List (Nat × Option α)

inductive Action (T α : Type)
  | write (t : T) (Data : α) (answer : Option Nat)
  | assign (t : T)
  | read (t : T) (Item : Int)
  | ret (t : T)
  | delete (t : T) (Item : Int)

section
variable {T α : Type} [DecidableEq T]

def initial : State T α := ⟨[], fun _ => none, 1, fun _ => .outside, [], [], []⟩

def items (FDatas : List Nat) (pos : Int) : Nat :=
  match ((YQList.Call.items pos).spec FDatas).1 with
  | .ptr p => p
  | .int _ => 0

def count (FDatas : List Nat) : Int :=
  match (YQList.Call.count.spec FDatas).1 with
  | .int n => n
  | .ptr _ => 0

def dataItem (FDatas : List Nat) (Item : Int) : Nat := if Item < count FDatas then items FDatas Item else 0

def extract (FDatas : List Nat) (Item : Int) : Nat × List Nat :=
  if Item < count FDatas then (dataItem FDatas Item, ((YQList.Call.removeElement Item).spec FDatas).2)
  else (0, FDatas)

def remove (removed : List Nat) (Data : Nat) : List Nat := if Data = 0 then removed else Data :: removed

def step (zero : α) (s : State T α) : Action T α → Option (State T α)
  | .write t Data answer =>
    match s.thr t with
    | .outside =>
      let PData := s.next
      some { s with
        FDatas := ((YQList.Call.add PData answer).spec s.FDatas).2
        objects := Function.update s.objects PData (some zero)
        next := s.next + 1
        thr := Function.update s.thr t (.assigning PData Data)
        written := Data :: s.written }
    | _ => none
  | .assign t =>
    match s.thr t with
    | .assigning PData Data =>
      some { s with
        -- an object that was deleted is not there to be assigned to
        objects := if (s.objects PData).isSome then Function.update s.objects PData (some Data) else s.objects
        thr := Function.update s.thr t .outside }
    | _ => none
  | .read t Item =>
    match s.thr t with
    | .outside =>
      let (Data, FDatas) := extract s.FDatas Item
      some { s with
        FDatas := FDatas
        thr := Function.update s.thr t (.returning Data)
        removed := remove s.removed Data }
    | _ => none
  | .ret t =>
    match s.thr t with
    | .returning Data =>
      some { s with
        thr := Function.update s.thr t .outside
        returned := if Data = 0 then s.returned else (Data, s.objects Data) :: s.returned }
    | _ => none
  | .delete t Item =>
    match s.thr t with
    | .outside =>
      let (Data, FDatas) := extract s.FDatas Item
      some { s with
        FDatas := FDatas
        objects := Function.update s.objects Data none
        removed := remove s.removed Data }
    | _ => none

end

end TYQDataList

end Afn
