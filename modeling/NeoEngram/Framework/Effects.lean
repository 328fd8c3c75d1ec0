import NeoEngram.Framework.Checks

/-! # Programs that call their environment

A program is a tree of calls: it asks its environment, gets one of the
answers the environment may give, and goes on. What the environment may do
is a relation between the state before a call, the answer, and the state
after it. A program can stop at any point, as a process does that is killed.
-/

namespace Effects

variable {Call : Type} {Answer : Call → Type} {S α β ε ι : Type}

/-! ## Programs -/

/-- A program returns, or makes a call and goes on with the answer. -/
inductive Prog (Call : Type) (Answer : Call → Type) (α : Type) where
  | ret (a : α)
  | call (c : Call) (next : Answer c → Prog Call Answer α)

namespace Prog

def bind : Prog Call Answer α → (α → Prog Call Answer β) → Prog Call Answer β
  | .ret a, f => f a
  | .call c next, f => .call c fun r => (next r).bind f

instance : Monad (Prog Call Answer) where
  pure := .ret
  bind := .bind

@[simp] theorem pure_eq (a : α) : (pure a : Prog Call Answer α) = .ret a := rfl

@[simp] theorem ret_bind (a : α) (f : α → Prog Call Answer β) : (Prog.ret a >>= f) = f a := rfl

@[simp] theorem call_bind (c : Call) (next : Answer c → Prog Call Answer α)
    (f : α → Prog Call Answer β) : (Prog.call c next >>= f) = .call c fun r => next r >>= f := rfl

end Prog

/-- A program that can fail. -/
abbrev Fallible (Call : Type) (Answer : Call → Type) (ε α : Type) := ExceptT ε (Prog Call Answer) α

/-- A step that calls nothing. -/
def checked (x : Except ε α) : Fallible Call Answer ε α := ExceptT.mk (.ret x)

/-- A call whose answer can be a failure. -/
def port {Value : Call → Type} (c : Call) :
    Fallible Call (fun c => Except ε (Value c)) ε (Value c) :=
  ExceptT.mk (.call c .ret)

/-- A call whose answer is a value, also if it reports a failure. -/
def request (c : Call) : Fallible Call Answer ε (Answer c) :=
  ExceptT.mk (.call c fun r => .ret (.ok r))

/-- The outcome of a program that can fail, as a value. -/
def outcome (x : Fallible Call Answer ε α) : Fallible Call Answer ε (Except ε α) :=
  ExceptT.mk (x.run >>= fun r => .ret (.ok r))

/-! ## Executions -/

/-- What the environment may answer to a call, and how the state changes. -/
abbrev Env (Call : Type) (Answer : Call → Type) (S : Type) := S → (c : Call) → Answer c → S → Prop

structure Event (Call : Type) (Answer : Call → Type) (S : Type) where
  before : S
  call : Call
  answer : Answer call
  after : S

/-- `Exec env s p trace s' x`: from `s` the program makes the calls of the trace and is then in
`s'`. It has returned `x`, or was stopped there if `x` is `none`. -/
inductive Exec (env : Env Call Answer S) :
    S → Prog Call Answer α → List (Event Call Answer S) → S → Option α → Prop
  | stop (s : S) (p : Prog Call Answer α) : Exec env s p [] s none
  | ret (s : S) (a : α) : Exec env s (.ret a) [] s (some a)
  | call {s s' s'' : S} {c : Call} {r : Answer c} {next : Answer c → Prog Call Answer α}
      {trace : List (Event Call Answer S)} {x : Option α} (hanswer : env s c r s')
      (hrest : Exec env s' (next r) trace s'' x) :
      Exec env s (.call c next) (⟨s, c, r, s'⟩ :: trace) s'' x

variable {env : Env Call Answer S} {p : Prog Call Answer α} {a : α} {f : α → Prog Call Answer β}

theorem Exec.bind {s m s' : S} {t₁ t₂ : List (Event Call Answer S)}
    {x : Option β} (h₁ : Exec env s p t₁ m (some a)) (h₂ : Exec env m (f a) t₂ s' x) :
    Exec env s (p >>= f) (t₁ ++ t₂) s' x := by
  induction p generalizing s t₁ with
  | ret b =>
    cases h₁
    exact h₂
  | call c next ih =>
    cases h₁ with
    | call hanswer hrest => exact .call hanswer (ih _ hrest)

/-- The execution with an environment that is a function: the calls, the last state and the
result. -/
def Prog.run_with (answer : S → (c : Call) → Answer c × S) :
    Prog Call Answer α → S → List (Event Call Answer S) × S × α
  | .ret a, s => ([], s, a)
  | .call c next, s =>
    let (r, s') := answer s c
    let (trace, rest) := (next r).run_with answer s'
    (⟨s, c, r, s'⟩ :: trace, rest)

variable {answer : S → (c : Call) → Answer c × S}

theorem Prog.exec_run_with (h : ∀ s c, env s c (answer s c).1 (answer s c).2)
    (p : Prog Call Answer α) (s : S) :
    Exec env s p (p.run_with answer s).1 (p.run_with answer s).2.1
      (some (p.run_with answer s).2.2) := by
  induction p generalizing s with
  | ret a => exact .ret s a
  | call c next ih => exact .call (h s c) (ih _ _)

variable {I : S → Prop}

theorem Prog.run_with_keeps (hkeep : ∀ s c, I s → I (answer s c).2)
    (p : Prog Call Answer α) {s : S} (hs : I s) : I (p.run_with answer s).2.1 := by
  induction p generalizing s with
  | ret a => exact hs
  | call c next ih => exact ih _ (hkeep s c hs)

/-- The execution that is stopped after a number of calls: the calls and the last state. -/
def Prog.cut_with (answer : S → (c : Call) → Answer c × S) :
    Nat → Prog Call Answer α → S → List (Event Call Answer S) × S
  | 0, _, s => ([], s)
  | _ + 1, .ret _, s => ([], s)
  | n + 1, .call c next, s =>
    let (r, s') := answer s c
    let (trace, last) := (next r).cut_with answer n s'
    (⟨s, c, r, s'⟩ :: trace, last)

theorem Prog.exec_cut_with (h : ∀ s c, env s c (answer s c).1 (answer s c).2) (n : Nat)
    (p : Prog Call Answer α) (s : S) :
    Exec env s p (p.cut_with answer n s).1 (p.cut_with answer n s).2 none := by
  induction n generalizing p s with
  | zero => exact .stop s p
  | succ n ih =>
    cases p with
    | ret a => exact .stop s _
    | call c next => exact .call (h s c) (ih _ _)

/-! ## Obligations -/

/-- A property of a call that is made: the state before it, the call, the answer and the state
after it. -/
abbrev CallProp (Call : Type) (Answer : Call → Type) (S : Type) :=
  S → (c : Call) → Answer c → S → Prop

/-- Whatever the environment answers, every call made from `s` on has the property `Φ`, and if the
program returns, then with a result and a state in `Q`. -/
def Meets (env : Env Call Answer S) (Φ : CallProp Call Answer S) :
    Prog Call Answer α → (α → S → Prop) → S → Prop
  | .ret a, Q, s => Q a s
  | .call c next, Q, s => ∀ r s', env s c r s' → Φ s c r s' ∧ Meets env Φ (next r) Q s'

variable {Q : α → S → Prop} {Value : Call → Type}

section Rules

variable {env : Env Call Answer S} {Φ : CallProp Call Answer S}
  {s : S} {p : Prog Call Answer α} {trace : List (Event Call Answer S)}

@[simp] theorem meets_call {c : Call} {next : Answer c → Prog Call Answer α} :
    Meets env Φ (.call c next) Q s ↔
      ∀ r s', env s c r s' → Φ s c r s' ∧ Meets env Φ (next r) Q s' :=
  Iff.rfl

theorem meets_bind {Q : β → S → Prop} :
    Meets env Φ (p >>= f) Q s ↔ Meets env Φ p (fun a s => Meets env Φ (f a) Q s) s := by
  induction p generalizing s with
  | ret a => rfl
  | call c next ih =>
    simp only [Prog.call_bind, meets_call, ih]

theorem Meets.mono {Q' : α → S → Prop} (h : Meets env Φ p Q s)
    (hQ : ∀ a s, Q a s → Q' a s) : Meets env Φ p Q' s := by
  induction p generalizing s with
  | ret a => exact hQ a s h
  | call c next ih =>
    intro r s' hanswer
    obtain ⟨hcall, hrest⟩ := h r s' hanswer
    exact ⟨hcall, ih r hrest⟩

theorem Meets.mono_calls {Φ' : CallProp Call Answer S} (h : Meets env Φ p Q s)
    (hΦ : ∀ s c r s', Φ s c r s' → Φ' s c r s') : Meets env Φ' p Q s := by
  induction p generalizing s with
  | ret a => exact h
  | call c next ih =>
    intro r s' hanswer
    obtain ⟨hcall, hrest⟩ := h r s' hanswer
    exact ⟨hΦ _ _ _ _ hcall, ih r hrest⟩

/-- **Soundness**: the obligations hold in every execution, also in one that is cut short. -/
theorem Meets.exec {s s' : S} {x : Option α} (h : Meets env Φ p Q s)
    (hexec : Exec env s p trace s' x) :
    (∀ e ∈ trace, Φ e.before e.call e.answer e.after) ∧ ∀ a, x = some a → Q a s' := by
  induction hexec with
  | stop s p => exact ⟨by simp, by simp⟩
  | ret s a =>
    refine ⟨by simp, ?_⟩
    intro b hb
    exact Option.some.inj hb ▸ h
  | call hanswer _ ih =>
    obtain ⟨hcall, hrest⟩ := h _ _ hanswer
    obtain ⟨hcalls, hresult⟩ := ih hrest
    exact ⟨List.forall_mem_cons.mpr ⟨hcall, hcalls⟩, hresult⟩

section

variable {s s' : S} {x : Option α} (hexec : Exec env s p trace s' x)

include hexec

theorem Exec.keeps (hkeep : ∀ e ∈ trace, I e.before → I e.after) (hs : I s) : I s' := by
  induction hexec with
  | stop s p => exact hs
  | ret s a => exact hs
  | call _ _ ih =>
    obtain ⟨hfirst, hrest⟩ := List.forall_mem_cons.mp hkeep
    exact ih hrest (hfirst hs)

theorem Exec.last :
    (trace = [] ∧ s' = s) ∨ ∃ e, trace.getLast? = some e ∧ s' = e.after := by
  induction hexec with
  | stop s p => exact .inl ⟨rfl, rfl⟩
  | ret s a => exact .inl ⟨rfl, rfl⟩
  | call _ _ ih =>
    rcases ih with ⟨rfl, rfl⟩ | ⟨e, hlast, rfl⟩
    · exact .inr ⟨_, rfl, rfl⟩
    · refine .inr ⟨e, ?_, rfl⟩
      rw [List.getLast?_cons, hlast]
      rfl

/-- The last state of an execution has a property that holds after one of its calls and that
every call keeps. -/
theorem Exec.keeps_of_mem (hkeep : ∀ e ∈ trace, I e.before → I e.after)
    {e : Event Call Answer S} (he : e ∈ trace)
    (hafter : I e.after) : I s' := by
  induction hexec with
  | stop s p => cases he
  | ret s a => cases he
  | call _ hexec ih =>
    obtain ⟨hfirst, hrest⟩ := List.forall_mem_cons.mp hkeep
    rcases List.mem_cons.mp he with rfl | he
    · exact hexec.keeps hrest hafter
    · exact ih hrest he

end

/-! ### Programs that can fail -/

/-- What holds after a step that can fail, if the rest has to establish `Q`. -/
def Then (f : α → S → Prop) (Q : Except ε β → S → Prop) : Except ε α → S → Prop
  | .ok a, s => f a s
  | .error e, s => Q (.error e) s

variable {x : Fallible Call Answer ε α}

@[simp] theorem then_ok {f : α → S → Prop} {Q : Except ε β → S → Prop} :
    Then f Q (.ok a) s ↔ f a s :=
  Iff.rfl

@[simp] theorem meets_pure {Q : Except ε α → S → Prop} :
    Meets env Φ (pure a : Fallible Call Answer ε α).run Q s ↔ Q (.ok a) s :=
  Iff.rfl

@[simp] theorem meets_checked {x : Except ε α} {Q : Except ε α → S → Prop} :
    Meets env Φ (checked x : Fallible Call Answer ε α).run Q s ↔ Q x s :=
  Iff.rfl

variable {f : α → Fallible Call Answer ε β}

@[simp] theorem meets_seq {Q : Except ε β → S → Prop} : Meets env Φ (x >>= f).run Q s ↔
      Meets env Φ x.run (Then (fun a s => Meets env Φ (f a).run Q s) Q) s := by
  rw [ExceptT.run_bind, meets_bind]
  constructor
  · intro h
    refine h.mono fun r s hr => ?_
    cases r <;> exact hr
  · intro h
    refine h.mono fun r s hr => ?_
    cases r <;> exact hr

@[simp] theorem meets_port {env : Env Call (fun c => Except ε (Value c)) S}
    {Φ : CallProp Call (fun c => Except ε (Value c)) S} {c : Call}
    {Q : Except ε (Value c) → S → Prop} :
    Meets env Φ (port c).run Q s ↔ ∀ r s', env s c r s' → Φ s c r s' ∧ Q r s' :=
  Iff.rfl

@[simp] theorem meets_request {c : Call} {Q : Except ε (Answer c) → S → Prop} :
    Meets env Φ (request c).run Q s ↔ ∀ r s', env s c r s' → Φ s c r s' ∧ Q (.ok r) s' :=
  Iff.rfl

@[simp] theorem meets_outcome
    {Q : Except ε (Except ε α) → S → Prop} : Meets env Φ (outcome x).run Q s ↔
      Meets env Φ x.run (fun r s => Q (.ok r) s) s := by
  have hrun : (outcome x).run = x.run >>= fun r => .ret (.ok r) := rfl
  rw [hrun, meets_bind]
  rfl

/-- A condition on the result of a program that can fail, for the case that it does not. -/
def OnOk (F : α → S → Prop) : Except ε α → S → Prop
  | .ok a, s => F a s
  | .error _, _ => True

theorem OnOk.mono {F G : α → S → Prop} {r : Except ε α} (h : OnOk F r s)
    (hFG : ∀ a, F a s → G a s) : OnOk G r s := by
  cases r with
  | ok a => exact hFG a h
  | error e => trivial

/-- A sequence, if nothing is asked of failures. -/
theorem meets_seq_onOk {F : β → S → Prop} : Meets env Φ (x >>= f).run (OnOk F) s ↔
      Meets env Φ x.run (OnOk fun a s => Meets env Φ (f a).run (OnOk F) s) s := by
  rw [meets_seq]
  constructor
  · intro h
    refine h.mono fun r s hr => ?_
    cases r with
    | ok a => exact hr
    | error e => trivial
  · intro h
    refine h.mono fun r s hr => ?_
    cases r with
    | ok a => exact hr
    | error e => trivial

end Rules

/-! ### Programs that make only certain calls -/

/-- Whatever the answers are, the program makes only calls in `P`. -/
def Only (P : Call → Prop) : Prog Call Answer α → Prop
  | .ret _ => True
  | .call c next => P c ∧ ∀ r, Only P (next r)

variable {P : Call → Prop}

theorem Only.bind (h : Only P p) (hf : ∀ a, Only P (f a)) : Only P (p >>= f) := by
  induction p with
  | ret a => exact hf a
  | call c next ih => exact ⟨h.1, fun r => ih r (h.2 r)⟩

theorem Only.seq {x : Fallible Call Answer ε α} {f : α → Fallible Call Answer ε β}
    (h : Only P x.run) (hf : ∀ a, Only P (f a).run) : Only P (x >>= f).run := by
  rw [ExceptT.run_bind]
  refine h.bind fun r => ?_
  cases r with
  | ok a => exact hf a
  | error e => exact trivial

theorem only_checked (x : Except ε α) : Only P (checked x : Fallible Call Answer ε α).run :=
  trivial

theorem only_pure (a : α) : Only P (pure a : Fallible Call Answer ε α).run :=
  trivial

theorem only_request {c : Call} (h : P c) :
    Only P (request c : Fallible Call Answer ε (Answer c)).run :=
  ⟨h, fun _ => trivial⟩

variable {Φ : CallProp Call Answer S}

theorem Only.meets (h : Only P p) (hΦ : ∀ s c r s', env s c r s' → P c → Φ s c r s')
    (s : S) : Meets env Φ p (fun _ _ => True) s := by
  induction p generalizing s with
  | ret a => trivial
  | call c next ih => exact fun r s' hanswer => ⟨hΦ s c r s' hanswer h.1, ih r (h.2 r) s'⟩

/-! ## Attempts -/

/-- A sequence of attempts to run programs of a family, each of which may be cut short. -/
inductive Attempts (env : Env Call Answer S) (prog : ι → Prog Call Answer α) :
    S → List (Event Call Answer S) → S → Prop
  | none (s : S) : Attempts env prog s [] s
  | more {s s' s'' : S} {i : ι} {trace rest : List (Event Call Answer S)} {x : Option α}
      (hexec : Exec env s (prog i) trace s' x) (hrest : Attempts env prog s' rest s'') :
      Attempts env prog s (trace ++ rest) s''

/-- **Run**: obligations that every program meets from every state hold for all the calls of all
the attempts. -/
theorem Attempts.forall_calls {prog : ι → Prog Call Answer α}
    (hmeets : ∀ i s, Meets env Φ (prog i) (fun _ _ => True) s) {s s' : S}
    {trace : List (Event Call Answer S)} (h : Attempts env prog s trace s') :
    ∀ e ∈ trace, Φ e.before e.call e.answer e.after := by
  induction h with
  | none s => simp
  | more hexec _ ih =>
    intro e he
    rcases List.mem_append.mp he with hfirst | hlater
    · exact ((hmeets _ _).exec hexec).1 e hfirst
    · exact ih e hlater

/-! ## Environments that are functions -/

/-- The environment with one answer to every call. -/
def Env.of (answer : S → (c : Call) → Answer c × S) : Env Call Answer S :=
  fun s c r s' => answer s c = (r, s')

section Functions

variable {answer : S → (c : Call) → Answer c × S}

theorem Meets.run_with {s : S} (h : Meets (Env.of answer) Φ p Q s) :
    Q (p.run_with answer s).2.2 (p.run_with answer s).2.1 :=
  (h.exec (Prog.exec_run_with (fun _ _ => rfl) p s)).2 _ rfl

/-- The result of a program that can fail, and the last state. -/
def eval (answer : S → (c : Call) → Answer c × S) (x : Fallible Call Answer ε α) (s : S) :
    Except ε α × S :=
  ((x.run.run_with answer s).2.2, (x.run.run_with answer s).2.1)

variable {f : α → Fallible Call Answer ε β} {x : Fallible Call Answer ε α}

theorem Prog.run_with_bind (p : Prog Call Answer α) (f : α → Prog Call Answer β) (s : S) :
    ((p >>= f).run_with answer s).2 =
      ((f (p.run_with answer s).2.2).run_with answer (p.run_with answer s).2.1).2 := by
  induction p generalizing s with
  | ret a => rfl
  | call c next ih => exact ih _ _

theorem eval_bind_ok {s s' : S} (h : eval answer x s = (.ok a, s')) :
    eval answer (x >>= f) s = eval answer (f a) s' := by
  obtain ⟨hresult, hstate⟩ := Prod.mk.inj h
  simp only [eval, ExceptT.run_bind, Prog.run_with_bind, hresult, hstate]

theorem eval_bind_error {s s' : S} {e : ε} (h : eval answer x s = (.error e, s')) :
    eval answer (x >>= f) s = (.error e, s') := by
  obtain ⟨hresult, hstate⟩ := Prod.mk.inj h
  simp only [eval, ExceptT.run_bind, Prog.run_with_bind, hresult, hstate]
  rfl

theorem eval_ok_of_bind {s s' : S} {b : β} (h : eval answer (x >>= f) s = (.ok b, s')) :
    ∃ a m, eval answer x s = (.ok a, m) := by
  obtain ⟨r, m, hfirst⟩ : ∃ r m, eval answer x s = (r, m) := ⟨_, _, rfl⟩
  cases r with
  | ok a => exact ⟨a, m, hfirst⟩
  | error e =>
    rw [eval_bind_error hfirst] at h
    cases h

end Functions

@[simp] theorem meets_port_of {answer : S → (c : Call) → Except ε (Value c) × S}
    {Φ : CallProp Call (fun c => Except ε (Value c)) S} {c : Call}
    {Q : Except ε (Value c) → S → Prop} {s : S} :
    Meets (Env.of answer) Φ (port c).run Q s ↔
      Φ s c (answer s c).1 (answer s c).2 ∧ Q (answer s c).1 (answer s c).2 := by
  rw [meets_port]
  constructor
  · intro h
    exact h _ _ rfl
  · intro h r s' hanswer
    simp only [Env.of] at hanswer
    rw [hanswer] at h
    exact h

end Effects
