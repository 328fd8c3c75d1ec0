import Mathlib.Logic.Function.Basic
import Mathlib.Logic.Relation

/-! # Runs of a service

A service takes one labelled step after the other. This file has the runs of
such a system, the rules by which a property of all runs follows from one of
the steps, and the book of outcomes from which a service answers a request
that was answered before.
-/

namespace Runs

variable {S Label : Type}

/-! ## Runs -/

inductive Run (step : S → Label → S → Prop) (s : S) : List Label → S → Prop
  | refl : Run step s [] s
  | step {log : List Label} {m s' : S} {l : Label} (hrun : Run step s log m)
      (hstep : step m l s') : Run step s (log ++ [l]) s'

variable {step : S → Label → S → Prop} {s s' : S} {log : List Label}

/-- **Invariant rule**: what every step keeps holds in every state that is reached. -/
theorem Run.invariant {I : S → Prop} (hrun : Run step s log s')
    (hstep : ∀ m l m', step m l m' → I m → I m') (hs : I s) : I s' := by
  induction hrun with
  | refl => exact hs
  | step _ h ih => exact hstep _ _ _ h ih

theorem Run.append {log' : List Label} {s'' : S} (hrun : Run step s log s')
    (hrun' : Run step s' log' s'') : Run step s (log ++ log') s'' := by
  induction hrun' with
  | refl => rwa [List.append_nil]
  | step _ h ih =>
    rw [← List.append_assoc]
    exact ih.step h

/-- A function that takes the steps gives a run for every list of labels. -/
theorem Run.of_foldl {next : S → Label → S} (hnext : ∀ m l, step m l (next m l)) (s : S)
    (log : List Label) : Run step s log (log.foldl next s) := by
  induction log generalizing s with
  | nil => exact .refl
  | cons l log ih =>
    have hfirst : Run step s ([] ++ [l]) (next s l) := .step .refl (hnext s l)
    exact hfirst.append (ih (next s l))

/-! ## Books of outcomes -/

variable {κ ρ ω ε : Type} [DecidableEq κ]

/-- For each job the request it came with and its outcome. -/
abbrev Book (κ ρ ω : Type) := κ → Option (ρ × ω)

/-- A request whose job has the same request in the book gets the outcome from the book. One whose
job is not in the book is answered and entered, or fails. Everything else fails. -/
inductive Book.Call (key : ρ → κ) (book : Book κ ρ ω) (request : ρ) :
    Except ε ω → Book κ ρ ω → Prop
  | failed (e : ε) (h : ∀ outcome, book (key request) ≠ some (request, outcome)) :
      Call key book request (.error e) book
  | replay {outcome : ω} (h : book (key request) = some (request, outcome)) :
      Call key book request (.ok outcome) book
  | record {outcome : ω} (h : book (key request) = none) :
      Call key book request (.ok outcome)
        (Function.update book (key request) (some (request, outcome)))

variable {key : ρ → κ} {book book' : Book κ ρ ω} {request : ρ} {result : Except ε ω}

theorem Book.update_iff {outcome outcome' : ω} {other : ρ} (hnone : book (key request) = none) :
    Function.update book (key request) (some (request, outcome)) (key other) =
        some (other, outcome') ↔
      (other = request ∧ outcome' = outcome) ∨ book (key other) = some (other, outcome') := by
  by_cases hjob : key other = key request
  · rw [hjob, Function.update_self, hnone]
    simp [eq_comm]
  · rw [Function.update_of_ne hjob]
    constructor
    · exact .inr
    · rintro (⟨rfl, -⟩ | hentry)
      · exact absurd rfl hjob
      · exact hentry

theorem Book.Call.keeps (h : Book.Call key book request result book') {k : κ} {entry : ρ × ω}
    (hentry : book k = some entry) : book' k = some entry := by
  cases h with
  | failed => exact hentry
  | replay => exact hentry
  | record hnone =>
    have hne : k ≠ key request := by
      intro heq
      rw [heq, hnone] at hentry
      cases hentry
    rwa [Function.update_of_ne hne]

end Runs
