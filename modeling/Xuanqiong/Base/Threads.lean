import Mathlib.Data.Set.Card
import Mathlib.Logic.Function.Basic

/-! Threads over shared memory, one of them moving at a time. What a thread knows of the memory
must hold after its own moves and be left alone by the moves of the others, which are kept
apart from it by what each of them owns. -/
namespace Xuanqiong

universe u v w

section

variable {S : Type u} {L : Type v} {ι : Type w}

structure Together (Inv : S → Prop) (Knows : S → L → Prop) (Apart : L → L → Prop) (s : S)
    (threads : ι → L) : Prop where
  shared : Inv s
  knows : ∀ t, Knows s (threads t)
  apart : ∀ t u, t ≠ u → Apart (threads t) (threads u)

structure Moves (Inv : S → Prop) (Knows : S → L → Prop) (Apart : L → L → Prop) (s : S) (l : L)
    (s' : S) (l' : L) : Prop where
  shared : Inv s'
  knows : Knows s' l'
  others : ∀ m, Knows s m → Apart l m → Knows s' m ∧ Apart l' m

variable {Inv : S → Prop} {Knows : S → L → Prop} {Apart : L → L → Prop}

theorem Together.move [DecidableEq ι] (symm : ∀ l m, Apart l m → Apart m l) {s s' : S}
    {threads : ι → L} {t : ι} {l' : L} (h : Together Inv Knows Apart s threads)
    (moves : Moves Inv Knows Apart s (threads t) s' l') :
    Together Inv Knows Apart s' (Function.update threads t l') := by
  have other : ∀ u, u ≠ t → Knows s' (threads u) ∧ Apart l' (threads u) := fun u hu =>
    moves.others _ (h.knows u) (h.apart t u (Ne.symm hu))
  refine ⟨moves.shared, ?_, ?_⟩
  · intro u
    by_cases hu : u = t
    · subst u
      rw [Function.update_self]
      exact moves.knows
    · rw [Function.update_of_ne hu]
      exact (other u hu).1
  · intro u v huv
    by_cases hu : u = t
    · subst u
      rw [Function.update_self, Function.update_of_ne (Ne.symm huv)]
      exact (other v (Ne.symm huv)).2
    · rw [Function.update_of_ne hu]
      by_cases hv : v = t
      · subst v
        rw [Function.update_self]
        exact symm _ _ (other u hu).2
      · rw [Function.update_of_ne hv]
        exact h.apart u v huv

theorem exists_update [DecidableEq ι] {P : L → Prop} {threads : ι → L} {t : ι}
    (own : ¬ P (threads t)) (h : ∃ u, P (threads u)) (l' : L) :
    ∃ u, P (Function.update threads t l' u) := by
  obtain ⟨u, hu⟩ := h
  have hut : u ≠ t := by
    rintro rfl
    exact own hu
  exact ⟨u, by rw [Function.update_of_ne hut]; exact hu⟩

theorem update_same {β : Type} [DecidableEq ι] (f : L → β) {threads : ι → L} {t : ι} {l' : L}
    (same : f l' = f (threads t)) (u : ι) : f (Function.update threads t l' u) = f (threads u) := by
  by_cases hu : u = t
  · subst u
    rw [Function.update_self, same]
  · rw [Function.update_of_ne hu]

section

variable [DecidableEq ι] {P : L → Prop} {threads : ι → L} {t : ι} {l' : L}

theorem encard_same (same : P l' ↔ P (threads t)) :
    {u | P (Function.update threads t l' u)}.encard = {u | P (threads u)}.encard := by
  congr 1
  ext u
  by_cases hu : u = t
  · subst u
    simpa using same
  · simp [Function.update_of_ne hu]

theorem encard_enter (out : ¬ P (threads t)) (now : P l') :
    {u | P (Function.update threads t l' u)}.encard = {u | P (threads u)}.encard + 1 := by
  have insert : {u | P (Function.update threads t l' u)} = insert t {u | P (threads u)} := by
    ext u
    by_cases hu : u = t
    · subst u
      simpa using now
    · simp [hu]
  rw [insert, Set.encard_insert_of_notMem (by simpa using out)]

theorem encard_leave (was : P (threads t)) (out : ¬ P l') :
    {u | P (threads u)}.encard = {u | P (Function.update threads t l' u)}.encard + 1 := by
  have away : ¬ P (Function.update threads t l' t) := by simpa using out
  have back := encard_enter away was
  rw [Function.update_idem, Function.update_eq_self] at back
  exact back

end

end

end Xuanqiong
