import Mathlib.Data.List.Dedup
import Mathlib.Tactic

/-!
# Unions in which the first one wins

A sequence of keyed values is collected into an association list that keeps,
for each key, the value that came first.  The collected list has every key
once, in order of appearance, and is the same map as the sequence itself; when
equal keys always carry equal values the order of two sequences does not
matter.
-/

namespace Tcb.FirstWins

variable {κ β : Type}

def keys (pairs : List (κ × β)) : List κ := pairs.map Prod.fst

/-- Equal keys carry equal values. -/
def Compatible (pairs : List (κ × β)) : Prop :=
  ∀ key left right, (key, left) ∈ pairs → (key, right) ∈ pairs → left = right

@[simp]
theorem mem_keys_concat {pairs : List (κ × β)} {pair : κ × β} {key : κ} :
    key ∈ keys (pairs ++ [pair]) ↔ key ∈ keys pairs ∨ key = pair.1 := by
  simp [keys, eq_comm]

variable [BEq κ] [LawfulBEq κ]

/-- Keep what is there; append what has a new key. -/
def insertNew (kept : List (κ × β)) (pair : κ × β) : List (κ × β) :=
  if pair.1 ∈ keys kept then kept else kept ++ [pair]

def union (pairs : List (κ × β)) : List (κ × β) := pairs.foldl insertNew []

@[simp]
theorem union_nil : union ([] : List (κ × β)) = [] := rfl

theorem union_concat (pairs : List (κ × β)) (pair : κ × β) :
    union (pairs ++ [pair]) = insertNew (union pairs) pair := by
  simp [union]

theorem mem_keys_union {pairs : List (κ × β)} {key : κ} :
    key ∈ keys (union pairs) ↔ key ∈ keys pairs := by
  induction pairs using List.reverseRecOn generalizing key with
  | nil => simp
  | append_singleton pairs pair ih =>
      rw [union_concat, insertNew, mem_keys_concat, ← ih]
      split
      · rename_i hmem
        constructor
        · exact .inl
        · rintro (hkey | rfl)
          · exact hkey
          · exact hmem
      · rw [mem_keys_concat]

theorem nodup_keys_union (pairs : List (κ × β)) : (keys (union pairs)).Nodup := by
  induction pairs using List.reverseRecOn with
  | nil => simp [keys]
  | append_singleton pairs pair ih =>
      rw [union_concat, insertNew]
      split
      · exact ih
      · rename_i hnew
        rw [keys, List.map_append, List.nodup_append]
        refine ⟨ih, by simp, ?_⟩
        intro key hkey other hother
        simp only [List.map_cons, List.map_nil, List.mem_singleton] at hother
        rintro rfl
        exact hnew (hother ▸ hkey)

/-- There is one pair for each key. -/
theorem length_union [DecidableEq κ] (pairs : List (κ × β)) :
    (union pairs).length = (keys pairs).dedup.length := by
  have hperm : (keys (union pairs)).Perm (keys pairs).dedup := by
    rw [List.perm_ext_iff_of_nodup (nodup_keys_union pairs) (List.nodup_dedup _)]
    intro key
    rw [mem_keys_union, List.mem_dedup]
  simpa [keys] using hperm.length_eq

theorem length_insertNew {kept : List (κ × β)} {pair : κ × β}
    (hnew : pair.1 ∉ keys kept) : (insertNew kept pair).length = kept.length + 1 := by
  rw [insertNew, if_neg hnew, List.length_append, List.length_singleton]

/-- Collecting more only appends. -/
theorem union_isPrefix (pairs more : List (κ × β)) :
    union pairs <+: union (pairs ++ more) := by
  induction more using List.reverseRecOn with
  | nil => simp
  | append_singleton more pair ih =>
      rw [← List.append_assoc, union_concat, insertNew]
      split
      · exact ih
      · exact ih.trans (List.prefix_append _ _)

theorem lookup_eq_none_iff {pairs : List (κ × β)} {key : κ} :
    pairs.lookup key = none ↔ key ∉ keys pairs := by
  rw [List.lookup_eq_none_iff]
  simp only [keys, List.mem_map, not_exists, not_and, bne_iff_ne, ne_eq]
  exact forall₂_congr fun pair _ => not_congr eq_comm

/-- The union is the same map as the sequence. -/
theorem lookup_union (pairs : List (κ × β)) (key : κ) :
    (union pairs).lookup key = pairs.lookup key := by
  induction pairs using List.reverseRecOn with
  | nil => rfl
  | append_singleton pairs pair ih =>
      rw [union_concat, insertNew, List.lookup_append, ← ih]
      split
      · rename_i hmem
        cases hlookup : (union pairs).lookup key with
        | some value => rfl
        | none =>
            obtain ⟨other, value⟩ := pair
            have hne : key ≠ other := by
              rintro rfl
              exact lookup_eq_none_iff.mp hlookup hmem
            simp [List.lookup_cons, beq_false_of_ne hne]
      · rw [List.lookup_append]

theorem lookup_of_getElem? {pairs : List (κ × β)} (hnodup : (keys pairs).Nodup)
    {index : ℕ} {key : κ} {value : β} (hpair : pairs[index]? = some (key, value)) :
    pairs.lookup key = some value := by
  obtain ⟨before, after, rfl⟩ := List.append_of_mem (List.mem_of_getElem? hpair)
  rw [List.lookup_eq_some_iff]
  refine ⟨before, after, rfl, fun pair hpair => ?_⟩
  simp only [keys, List.map_append, List.map_cons, List.nodup_append] at hnodup
  rw [bne_iff_ne]
  exact (hnodup.2.2 pair.1 (List.mem_map_of_mem hpair) key (by simp)).symm

theorem mem_of_lookup {pairs : List (κ × β)} {key : κ} {value : β}
    (hlookup : pairs.lookup key = some value) : (key, value) ∈ pairs := by
  obtain ⟨before, after, rfl, -⟩ := List.lookup_eq_some_iff.mp hlookup
  simp

/-- Compatible sequences may be collected in either order. -/
theorem lookup_append_comm {left right : List (κ × β)}
    (hcompatible : Compatible (left ++ right)) (key : κ) :
    (left ++ right).lookup key = (right ++ left).lookup key := by
  rw [List.lookup_append, List.lookup_append]
  cases hleft : left.lookup key with
  | none => cases right.lookup key <;> rfl
  | some one =>
      cases hright : right.lookup key with
      | none => rfl
      | some two =>
          have hagree := hcompatible key one two
            (List.mem_append_left _ (mem_of_lookup hleft))
            (List.mem_append_right _ (mem_of_lookup hright))
          simp [hagree]

end Tcb.FirstWins
