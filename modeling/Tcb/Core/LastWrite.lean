import Mathlib.Data.List.Induction
import Mathlib.Logic.Function.Basic

/-!
# Slots that are written over

A slot holds the value of the last write to it, and what it held at first when
there was none.
-/

namespace Tcb.LastWrite

variable {ι α : Type} [DecidableEq ι]

def write (slots : ι → α) (entry : ι × α) : ι → α := Function.update slots entry.1 entry.2

/-- The writes in their order. -/
def writes (slots : ι → α) (entries : List (ι × α)) : ι → α := entries.foldl write slots

/-- The value of the last write to the slot. -/
def last (entries : List (ι × α)) (slot : ι) : Option α := entries.reverse.lookup slot

theorem last_snoc (entries : List (ι × α)) (entry : ι × α) (slot : ι) :
    last (entries ++ [entry]) slot =
      if slot = entry.1 then some entry.2 else last entries slot := by
  rw [last, List.reverse_append, List.reverse_singleton, List.singleton_append, List.lookup_cons]
  by_cases heq : slot = entry.1
  · rw [if_pos heq, beq_iff_eq.mpr heq]
  · rw [if_neg heq, beq_false_of_ne heq]
    rfl

theorem writes_snoc (slots : ι → α) (entries : List (ι × α)) (entry : ι × α) :
    writes slots (entries ++ [entry]) = write (writes slots entries) entry := by
  rw [writes, List.foldl_append]
  rfl

theorem writes_apply (slots : ι → α) (entries : List (ι × α)) (slot : ι) :
    writes slots entries slot = (last entries slot).getD (slots slot) := by
  induction entries using List.reverseRecOn with
  | nil => rfl
  | append_singleton entries entry ih =>
      rw [writes_snoc, write, last_snoc]
      by_cases heq : slot = entry.1
      · rw [heq, Function.update_self, if_pos rfl, Option.getD_some]
      · rw [Function.update_of_ne heq, if_neg heq, ih]

theorem mem_of_last {entries : List (ι × α)} {slot : ι} {value : α}
    (hlast : last entries slot = some value) : (slot, value) ∈ entries := by
  induction entries using List.reverseRecOn with
  | nil => exact nomatch hlast
  | append_singleton entries entry ih =>
      rw [last_snoc] at hlast
      by_cases heq : slot = entry.1
      · rw [if_pos heq, Option.some.injEq] at hlast
        rw [heq, ← hlast]
        exact List.mem_concat_self
      · rw [if_neg heq] at hlast
        exact List.mem_append_left _ (ih hlast)

end Tcb.LastWrite
