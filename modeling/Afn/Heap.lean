/-!
# Objects that are created and deleted

An address is live from its allocation to its release. The invariant that only allocated addresses are
released is a field of the heap.
-/

structure Heap where
  next : Nat
  freed : List Nat
  freed_lt : ∀ a ∈ freed, a < next

namespace Heap

def empty : Heap := ⟨0, [], fun _ h => nomatch h⟩

def Live (h : Heap) (a : Nat) : Prop := a < h.next ∧ a ∉ h.freed

instance (h : Heap) (a : Nat) : Decidable (h.Live a) := inferInstanceAs (Decidable (_ ∧ _))

-- the address that is allocated is `h.next`
def alloc (h : Heap) : Heap := ⟨h.next + 1, h.freed, fun a ha => Nat.lt_succ_of_lt (h.freed_lt a ha)⟩

-- `none` when the address is not live
def free (h : Heap) (a : Nat) : Option Heap :=
  if hl : h.Live a then
    some ⟨h.next, a :: h.freed, fun b hb => by
      cases hb with
      | head => exact hl.1
      | tail _ hb => exact h.freed_lt b hb⟩
  else none

theorem live_alloc (h : Heap) : h.alloc.Live h.next :=
  ⟨Nat.lt_succ_self _, fun ha => Nat.lt_irrefl _ (h.freed_lt _ ha)⟩

theorem Live.alloc {h : Heap} {a : Nat} (hl : h.Live a) : h.alloc.Live a := ⟨Nat.lt_succ_of_lt hl.1, hl.2⟩

theorem Live.ne_next {h : Heap} {a : Nat} (hl : h.Live a) : a ≠ h.next := Nat.ne_of_lt hl.1

theorem free_live {h : Heap} {a : Nat} (hl : h.Live a) :
    ∃ h', h.free a = some h' ∧ (∀ b, h.Live b → b ≠ a → h'.Live b) ∧
      ∀ b, b = a ∨ b ∈ h.freed → b ∈ h'.freed := by
  refine ⟨_, dif_pos hl, fun b hb hne => ⟨hb.1, ?_⟩, ?_⟩
  · exact List.not_mem_cons_of_ne_of_not_mem hne hb.2
  · rintro b (rfl | hb)
    · exact List.mem_cons_self ..
    · exact List.mem_cons_of_mem _ hb

theorem free_eq {h h' : Heap} {a : Nat} (hf : h.free a = some h') :
    h.Live a ∧ h'.next = h.next ∧ h'.freed = a :: h.freed := by
  unfold free at hf
  split at hf
  next hl =>
    cases hf
    exact ⟨hl, rfl, rfl⟩
  next => cases hf

theorem free_freed {h : Heap} {a : Nat} (ha : a ∈ h.freed) : h.free a = none := dif_neg fun hl => hl.2 ha

/-- Between `h` and `h'` the addresses `dels` are released, each once. -/
structure Deleted (h h' : Heap) (dels : List Nat) : Prop where
  next_le : h.next ≤ h'.next
  freed : h'.freed = dels ++ h.freed
  nodup : dels.Nodup
  not_freed : ∀ a ∈ dels, a ∉ h.freed

theorem Deleted.refl (h : Heap) : h.Deleted h [] :=
  ⟨Nat.le_refl _, rfl, List.nodup_nil, List.forall_mem_nil _⟩

theorem deleted_alloc (h : Heap) : h.Deleted h.alloc [] :=
  ⟨Nat.le_succ _, rfl, List.nodup_nil, List.forall_mem_nil _⟩

theorem deleted_free {h h' : Heap} {a : Nat} (hf : h.free a = some h') : h.Deleted h' [a] := by
  obtain ⟨hl, hnext, hfreed⟩ := free_eq hf
  refine ⟨Nat.le_of_eq hnext.symm, hfreed, List.nodup_cons.mpr ⟨List.not_mem_nil, List.nodup_nil⟩, ?_⟩
  intro b hb
  rw [List.mem_singleton.mp hb]
  exact hl.2

theorem Deleted.trans {h₁ h₂ h₃ : Heap} {dels dels' : List Nat} (hd : h₁.Deleted h₂ dels)
    (hd' : h₂.Deleted h₃ dels') : h₁.Deleted h₃ (dels' ++ dels) := by
  refine ⟨Nat.le_trans hd.next_le hd'.next_le, ?_, ?_, ?_⟩
  · rw [hd'.freed, hd.freed, List.append_assoc]
  · rw [List.nodup_append]
    refine ⟨hd'.nodup, hd.nodup, ?_⟩
    rintro a ha b hb rfl
    apply hd'.not_freed a ha
    rw [hd.freed]
    exact List.mem_append_left _ hb
  · intro a ha
    rcases List.mem_append.mp ha with ha | ha
    · intro hmem
      apply hd'.not_freed a ha
      rw [hd.freed]
      exact List.mem_append_right _ hmem
    · exact hd.not_freed a ha

end Heap
