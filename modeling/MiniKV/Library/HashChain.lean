import Mathlib

/-!
# Hashes computed one symbol at a time

A running hash folds a step over its input.  When each step is injective in the
state, a difference once present survives any number of further symbols; when
it is also injective in the symbol, replacing one symbol always changes the
result.
-/

namespace MiniKV.HashChain

open Function

variable {State Symbol : Type*} {step : State → Symbol → State}

/-- Equal further symbols keep different states different. -/
theorem foldl_injective (hstate : ∀ symbol, Injective fun state => step state symbol)
    (symbols : List Symbol) :
    Injective fun state => symbols.foldl step state := by
  induction symbols with
  | nil => exact injective_id
  | cons symbol symbols ih =>
      intro left right heq
      exact hstate symbol (ih heq)

/-- Two inputs that differ in exactly one symbol between equal ones have
different hashes. -/
theorem foldl_ne_of_one_symbol
    (hstate : ∀ symbol, Injective fun state => step state symbol)
    (hsymbol : ∀ state, Injective (step state))
    (before after : List Symbol) {left right : Symbol} (hne : left ≠ right)
    (start : State) :
    (before ++ left :: after).foldl step start ≠
      (before ++ right :: after).foldl step start := by
  intro heq
  simp only [List.foldl_append, List.foldl_cons] at heq
  exact hne (hsymbol _ (foldl_injective hstate after heq))

/-- The second input is the first one with the symbol at this position
replaced by a different one. -/
structure DiffersAt (position : ℕ) (left right : List Symbol) : Prop where
  inside : position < left.length
  changed : ∃ symbol, symbol ≠ left[position] ∧
    right = left.set position symbol

namespace DiffersAt

variable {position : ℕ} {left right leftRest rightRest : List Symbol}

theorem ne (hdiffers : DiffersAt position left right) : left ≠ right := by
  obtain ⟨hinside, symbol, hsymbol, rfl⟩ := hdiffers
  intro heq
  have hget := List.getElem_set_self (a := symbol) (h := by simpa using hinside)
  exact hsymbol (hget.symm.trans (by rw [getElem_congr_coll heq.symm]))

theorem append_right (hdiffers : DiffersAt position left right)
    (rest : List Symbol) :
    DiffersAt position (left ++ rest) (right ++ rest) := by
  obtain ⟨hinside, symbol, hsymbol, rfl⟩ := hdiffers
  refine ⟨by simp; omega, symbol, ?_, ?_⟩
  · rwa [List.getElem_append_left hinside]
  · rw [List.set_append_left _ _ hinside]

theorem append_left (hdiffers : DiffersAt position left right)
    (front : List Symbol) :
    DiffersAt (front.length + position) (front ++ left) (front ++ right) := by
  obtain ⟨hinside, symbol, hsymbol, rfl⟩ := hdiffers
  refine ⟨by simpa using hinside, symbol, ?_, ?_⟩
  · rw [List.getElem_append_right (Nat.le_add_right _ _)]
    simpa using hsymbol
  · rw [List.set_append_right _ _ (Nat.le_add_right _ _),
      Nat.add_sub_cancel_left]

/-- The differing symbol lies in one of two parts of equal lengths. -/
theorem append_cases
    (hdiffers : DiffersAt position (left ++ leftRest) (right ++ rightRest))
    (hlength : left.length = right.length) :
    position < left.length ∧ DiffersAt position left right ∧
        leftRest = rightRest ∨
      left.length ≤ position ∧ left = right ∧
        DiffersAt (position - left.length) leftRest rightRest := by
  obtain ⟨hinside, symbol, hsymbol, hset⟩ := hdiffers
  by_cases hfirst : position < left.length
  · left
    rw [List.set_append_left _ _ hfirst] at hset
    rw [List.getElem_append_left hfirst] at hsymbol
    obtain ⟨hleft, hrest⟩ := List.append_inj hset (by simpa using hlength.symm)
    exact ⟨hfirst, ⟨hfirst, symbol, hsymbol, hleft⟩, hrest.symm⟩
  · right
    have hlast := Nat.not_lt.mp hfirst
    rw [List.set_append_right _ _ hlast] at hset
    rw [List.getElem_append_right hlast] at hsymbol
    rw [List.length_append] at hinside
    obtain ⟨hleft, hrest⟩ := List.append_inj hset hlength.symm
    exact ⟨hlast, hleft.symm, by omega, symbol, hsymbol, hrest⟩

/-- Replacing one symbol always changes the hash. -/
theorem foldl_ne
    (hstate : ∀ symbol, Injective fun state => step state symbol)
    (hsymbol : ∀ state, Injective (step state))
    (hdiffers : DiffersAt position left right) (start : State) :
    left.foldl step start ≠ right.foldl step start := by
  obtain ⟨hinside, symbol, hne, rfl⟩ := hdiffers
  have hsplit : left = left.take position ++
      left[position] :: left.drop (position + 1) := by
    rw [← List.drop_eq_getElem_cons hinside, List.take_append_drop]
  rw [List.set_eq_take_append_cons_drop, if_pos hinside]
  conv_lhs => rw [hsplit]
  exact foldl_ne_of_one_symbol hstate hsymbol _ _ hne.symm start

end DiffersAt

end MiniKV.HashChain
