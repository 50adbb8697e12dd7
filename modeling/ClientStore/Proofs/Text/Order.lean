import ClientStore.Text.Basic
import Mathlib.Order.Fin.Basic

/-!
# The order by code points

The order of texts is total, so that sorting puts any texts in order, and there is one way only to
do so.

## Main results

* `Text.pairwise_sort`, `Text.perm_sort` — sorting puts texts in order and does nothing else.
* `Text.eq_of_perm_of_pairwise` — texts in order are known without their order.
-/

namespace ClientStore.Text

theorem le_cons_iff {a b : CodePoint} {s t : Text} :
    le (a :: s) (b :: t) = true ↔ a < b ∨ a = b ∧ le s t = true := by
  simp [le]

theorem le_total (s t : Text) : (le s t || le t s) = true := by
  induction s generalizing t with
  | nil => rfl
  | cons a s ih =>
    cases t with
    | nil => rfl
    | cons b t =>
      rw [Bool.or_eq_true, le_cons_iff, le_cons_iff]
      rcases lt_trichotomy a b with hlt | rfl | hgt
      · exact .inl (.inl hlt)
      · exact (Bool.or_eq_true _ _ ▸ ih t).imp (fun h => .inr ⟨rfl, h⟩) fun h => .inr ⟨rfl, h⟩
      · exact .inr (.inl hgt)

theorem le_trans {s t u : Text} (h : le s t = true) (h' : le t u = true) : le s u = true := by
  induction s generalizing t u with
  | nil => rfl
  | cons a s ih =>
    cases t with
    | nil => contradiction
    | cons b t =>
      cases u with
      | nil => contradiction
      | cons c u =>
        rw [le_cons_iff] at h h' ⊢
        rcases h with hab | ⟨rfl, hst⟩
        · rcases h' with hbc | ⟨rfl, -⟩
          · exact .inl (hab.trans hbc)
          · exact .inl hab
        · exact h'.imp_right fun ⟨he, htu⟩ => ⟨he, ih hst htu⟩

theorem le_antisymm {s t : Text} (h : le s t = true) (h' : le t s = true) : s = t := by
  induction s generalizing t with
  | nil =>
    cases t with
    | nil => rfl
    | cons b t => contradiction
  | cons a s ih =>
    cases t with
    | nil => contradiction
    | cons b t =>
      rw [le_cons_iff] at h h'
      rcases h with hab | ⟨rfl, hst⟩
      · rcases h' with hba | ⟨rfl, -⟩
        · exact absurd hab hba.asymm
        · exact absurd hab (lt_irrefl _)
      · rcases h' with hba | ⟨-, hts⟩
        · exact absurd hba (lt_irrefl _)
        · rw [ih hst hts]

theorem perm_sort (ts : List Text) : (sort ts).Perm ts := List.mergeSort_perm ts le

theorem pairwise_sort (ts : List Text) : (sort ts).Pairwise fun s t => le s t = true := by
  refine List.pairwise_mergeSort ?_ le_total ts
  intro s t u
  exact le_trans

/-- **There is one way only to put texts in order.** -/
theorem eq_of_perm_of_pairwise {ss ts : List Text} (hp : ss.Perm ts)
    (hs : ss.Pairwise fun s t => le s t = true) (ht : ts.Pairwise fun s t => le s t = true) :
    ss = ts :=
  hp.eq_of_pairwise (fun _ _ _ _ => le_antisymm) hs ht

end ClientStore.Text
