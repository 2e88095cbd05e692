import Mathlib

/-! # Ordered containers

    What a `std::set` or `std::map` holds: entries in strictly increasing order of
    their keys, so that no key occurs twice. This module provides:

    - `Ordered`: such a list of entries, with the order as a field
    - `find?`, `assign`, `erase`, `insert`: the operations by key, with what is in the result
    - `find?_eq_some`, `key_inj`: entries and keys determine each other -/

universe u v

namespace LTS

variable {α : Type u} {β : Type v} [LinearOrder β]

/-- Entries by increasing key. -/
structure Ordered (key : α → β) where
  entries : List α
  sorted : entries.Pairwise fun a b => key a < key b

namespace Ordered

variable {key : α → β}

instance [DecidableEq α] : DecidableEq (Ordered key) := fun s t =>
  decidable_of_iff (s.entries = t.entries)
    ⟨fun h => by cases s; cases t; cases h; rfl, fun h => h ▸ rfl⟩

instance : Membership α (Ordered key) := ⟨fun s a => a ∈ s.entries⟩

@[ext] theorem ext {s t : Ordered key} (h : s.entries = t.entries) : s = t := by
  cases s
  cases t
  cases h
  rfl

theorem mem_entries {s : Ordered key} {a : α} : a ∈ s.entries ↔ a ∈ s := Iff.rfl

def empty : Ordered key := ⟨[], List.Pairwise.nil⟩

/-- One entry. -/
def single (a : α) : Ordered key := ⟨[a], List.pairwise_singleton _ a⟩

theorem mem_single {a b : α} : a ∈ (single b : Ordered key) ↔ a = b := List.mem_singleton

theorem key_inj {s : Ordered key} {a b : α} (ha : a ∈ s) (hb : b ∈ s) (h : key a = key b) :
    a = b := by
  by_contra hne
  obtain ⟨pre, post, hs⟩ := List.mem_iff_append.mp ha
  have hb : b ∈ pre ++ a :: post := hs ▸ hb
  have hsorted := hs ▸ s.sorted
  rw [List.pairwise_append] at hsorted
  rcases List.mem_append.mp hb with hb | hb
  · exact absurd h.symm (ne_of_lt (hsorted.2.2 b hb a List.mem_cons_self))
  · rcases List.mem_cons.mp hb with hb | hb
    · exact hne hb.symm
    · exact absurd h (ne_of_lt ((List.pairwise_cons.mp hsorted.2.1).1 b hb))

theorem nodup_keys (s : Ordered key) : (s.entries.map key).Nodup := by
  rw [List.Nodup, List.pairwise_map]
  exact s.sorted.imp fun h => ne_of_lt h

/-! ### Lookup -/

/-- The entry with key `k`. -/
def find? (s : Ordered key) (k : β) : Option α :=
  s.entries.find? fun a => key a = k

theorem find?_eq_some {s : Ordered key} {k : β} {a : α} :
    s.find? k = some a ↔ a ∈ s ∧ key a = k := by
  constructor
  · intro h
    exact ⟨List.mem_of_find?_eq_some h, by simpa using List.find?_some h⟩
  · rintro ⟨ha, rfl⟩
    obtain ⟨b, hb⟩ : ∃ b, s.find? (key a) = some b := by
      rw [← Option.isSome_iff_exists]
      exact List.find?_isSome.mpr ⟨a, ha, by simp⟩
    have hkey : key b = key a := by simpa using List.find?_some hb
    rw [hb, key_inj (List.mem_of_find?_eq_some hb) ha hkey]

theorem find?_eq_none {s : Ordered key} {k : β} : s.find? k = none ↔
    ∀ a ∈ s, key a ≠ k := by
  unfold find?
  rw [List.find?_eq_none]
  simp [mem_entries]

/-! ### Updates -/

/-- Put `a` where its key belongs, in place of an entry with the same key. -/
def put (key : α → β) (a : α) : List α → List α
  | [] => [a]
  | b :: l =>
    if key a < key b then a :: b :: l else if key a = key b then a :: l else b :: put key a l

theorem mem_put {a x : α} {l : List α} (hl : l.Pairwise fun a b => key a < key b) :
    x ∈ put key a l ↔ x = a ∨ x ∈ l ∧ key x ≠ key a := by
  induction l with
  | nil => simp [put]
  | cons b l ih =>
    obtain ⟨hb, hl⟩ := List.pairwise_cons.mp hl
    unfold put
    split
    · next hlt =>
      -- all entries lie behind `a`
      have hne : ∀ y ∈ b :: l, key y ≠ key a := by
        intro y hy
        rcases List.mem_cons.mp hy with rfl | hy
        · exact ne_of_gt hlt
        · exact ne_of_gt (lt_trans hlt (hb y hy))
      rw [List.mem_cons]
      exact or_congr_right ⟨fun hx => ⟨hx, hne x hx⟩, And.left⟩
    · split
      · next heq =>
        have hne : ∀ y ∈ l, key y ≠ key a := fun y hy => ne_of_gt (heq ▸ hb y hy)
        rw [List.mem_cons, List.mem_cons]
        refine or_congr_right ⟨fun hx => ⟨.inr hx, hne x hx⟩, ?_⟩
        rintro ⟨rfl | hx, hk⟩
        · exact absurd heq.symm hk
        · exact hx
      · next hne =>
        rw [List.mem_cons, List.mem_cons, ih hl]
        have hb : key b ≠ key a := fun h => hne h.symm
        constructor
        · rintro (rfl | rfl | ⟨hx, hk⟩)
          · exact .inr ⟨.inl rfl, hb⟩
          · exact .inl rfl
          · exact .inr ⟨.inr hx, hk⟩
        · rintro (rfl | ⟨rfl | hx, hk⟩)
          · exact .inr (.inl rfl)
          · exact .inl rfl
          · exact .inr (.inr ⟨hx, hk⟩)

theorem put_sorted (a : α) {l : List α} (hl : l.Pairwise fun a b => key a < key b) :
    (put key a l).Pairwise fun a b => key a < key b := by
  induction l with
  | nil => exact List.pairwise_singleton _ a
  | cons b l ih =>
    obtain ⟨hb, hl'⟩ := List.pairwise_cons.mp hl
    unfold put
    split
    · next hlt =>
      refine List.pairwise_cons.mpr ⟨fun y hy => ?_, hl⟩
      rcases List.mem_cons.mp hy with rfl | hy
      · exact hlt
      · exact lt_trans hlt (hb y hy)
    · split
      · next heq => exact List.pairwise_cons.mpr ⟨fun y hy => heq ▸ hb y hy, hl'⟩
      · next hge hne =>
        refine List.pairwise_cons.mpr ⟨fun y hy => ?_, ih hl'⟩
        rcases (mem_put hl').mp hy with rfl | ⟨hy, -⟩
        · exact lt_of_le_of_ne (not_lt.mp hge) (Ne.symm hne)
        · exact hb y hy

/-- `m[key a] = a`. -/
def assign (s : Ordered key) (a : α) : Ordered key :=
  ⟨put key a s.entries, put_sorted a s.sorted⟩

theorem mem_assign {s : Ordered key} {a x : α} :
    x ∈ s.assign a ↔ x = a ∨ x ∈ s ∧ key x ≠ key a :=
  mem_put s.sorted

/-- `m.erase(k)`. -/
def erase (s : Ordered key) (k : β) : Ordered key :=
  ⟨s.entries.filter fun a => key a ≠ k, s.sorted.filter _⟩

theorem mem_erase {s : Ordered key} {k : β} {x : α} : x ∈ s.erase k ↔
    x ∈ s ∧ key x ≠ k := by
  show x ∈ s.entries.filter _ ↔ _
  rw [List.mem_filter]
  simp [mem_entries]

/-- `m.insert(a)`, which leaves an entry with the same key as it is. -/
def insert (s : Ordered key) (a : α) : Ordered key :=
  match s.find? (key a) with
  | some _ => s
  | none => s.assign a

theorem mem_of_insert {s : Ordered key} {a x : α} (h : x ∈ s.insert a) : x ∈ s ∨ x = a := by
  unfold insert at h
  split at h
  · exact .inl h
  · rcases mem_assign.mp h with heq | ⟨hx, _⟩
    · exact .inr heq
    · exact .inl hx

theorem mem_of_foldl_insert {l : List α} {s : Ordered key} {x : α} (h : x ∈ l.foldl insert s) :
    x ∈ s ∨ x ∈ l := by
  induction l generalizing s with
  | nil => exact .inl h
  | cons a l ih =>
    rcases ih h with hx | hx
    · rcases mem_of_insert hx with hx | rfl
      · exact .inl hx
      · exact .inr List.mem_cons_self
    · exact .inr (List.mem_cons_of_mem _ hx)

theorem put_last {a : α} {l : List α} (h : ∀ b ∈ l, key b < key a) :
    put key a l = l ++ [a] := by
  induction l with
  | nil => rfl
  | cons b l ih =>
    obtain ⟨hb, hl⟩ := List.forall_mem_cons.mp h
    unfold put
    rw [if_neg (not_lt_of_gt hb), if_neg (ne_of_gt hb), ih hl]
    rfl

theorem insert_last {s : Ordered key} {a : α} (h : ∀ b ∈ s, key b < key a) :
    (s.insert a).entries = s.entries ++ [a] := by
  have hnone : s.find? (key a) = none := find?_eq_none.mpr fun b hb => ne_of_lt (h b hb)
  unfold insert
  rw [hnone]
  exact put_last h

/-- Entries that are inserted in increasing order are kept in this order. -/
theorem foldl_insert {l : List α} {s : Ordered key}
    (h : (s.entries ++ l).Pairwise fun a b => key a < key b) :
    (l.foldl insert s).entries = s.entries ++ l := by
  induction l generalizing s with
  | nil => simp
  | cons a l ih =>
    have hlast : (s.insert a).entries = s.entries ++ [a] := by
      apply insert_last
      intro b hb
      exact (List.pairwise_append.mp h).2.2 b hb a List.mem_cons_self
    rw [List.foldl_cons, ih, hlast, List.append_assoc]
    · rfl
    · rw [hlast, List.append_assoc]
      exact h

end Ordered

end LTS
