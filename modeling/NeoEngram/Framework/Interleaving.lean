import NeoEngram.Framework.Effects
import Mathlib.Logic.Function.Basic

/-! # Programs that run side by side

Several workers run programs on one state. Their calls alternate in any order,
a worker can be stopped at any point and begin again, and the state can change
from outside. One worker is verified under interference: before each of its
calls the state may change along its rely. If the calls of each worker stay
within the relies of the others, all obligations hold in every run.
-/

namespace Effects

variable {Call : Type} {Answer : Call → Type} {S ι J α β ε : Type}

/-! ## Interference -/

/-- Before each call the state may change along `R`. -/
def Env.under (R : S → S → Prop) (env : Env Call Answer S) : Env Call Answer S :=
  fun s c r s' => ∃ m, R s m ∧ env m c r s'

/-- The property `Φ` of a call that is made after a change along `R`. -/
def CallProp.under (R : S → S → Prop) (env : Env Call Answer S) (Φ : CallProp Call Answer S) :
    CallProp Call Answer S :=
  fun s c r s' => ∀ m, R s m → env m c r s' → Φ m c r s'

/-- The obligations of a program whose environment changes the state along `R` before each
call. -/
abbrev Relies (R : S → S → Prop) (env : Env Call Answer S) (Φ : CallProp Call Answer S)
    (p : Prog Call Answer α) (Q : α → S → Prop) (s : S) : Prop :=
  Meets (Env.under R env) (CallProp.under R env Φ) p Q s

variable {R : S → S → Prop} {env : Env Call Answer S} {Φ : CallProp Call Answer S}
  {p : Prog Call Answer α}

variable {s : S} {Q : α → S → Prop}

theorem relies_call {c : Call} {next : Answer c → Prog Call Answer α} :
    Relies R env Φ (.call c next) Q s ↔
      ∀ m, R s m → ∀ r s', env m c r s' → Φ m c r s' ∧ Relies R env Φ (next r) Q s' := by
  constructor
  · intro h m hm r s' hanswer
    obtain ⟨hcall, hrest⟩ := h r s' ⟨m, hm, hanswer⟩
    exact ⟨hcall m hm hanswer, hrest⟩
  · intro h r s' hanswer
    refine ⟨fun m hm hcall => (h m hm r s' hcall).1, ?_⟩
    obtain ⟨m, hm, hcall⟩ := hanswer
    exact (h m hm r s' hcall).2

/-- A program whose calls all stay within the rely is itself like interference. -/
theorem Only.relies {P : Call → Prop} {I : S → Prop} (h : Only P p) (hrefl : ∀ s, R s s)
    (htrans : ∀ s m s', R s m → R m s' → R s s') (hstable : ∀ s s', R s s' → I s → I s')
    (hcall : ∀ s c r s', I s → env s c r s' → P c → Φ s c r s' ∧ R s s') (hs : I s) :
    Relies R env Φ p (fun _ s' => R s s') s := by
  induction p generalizing s with
  | ret a => exact hrefl s
  | call c next ih =>
    rw [relies_call]
    intro m hm r s' hanswer
    obtain ⟨hΦ, hR⟩ := hcall m c r s' (hstable s m hm hs) hanswer h.1
    have hs' : I s' := hstable m s' hR (hstable s m hm hs)
    refine ⟨hΦ, (ih r (h.2 r) hs').mono fun _ s'' hs'' => ?_⟩
    exact htrans s s' s'' (htrans s m s' hm hR) hs''

/-- A program whose calls stay within the rely ends in a state that the rely leads to. -/
theorem Relies.track (h : Relies R env Φ p Q s) (hrefl : ∀ s, R s s)
    (htrans : ∀ s m s', R s m → R m s' → R s s') (hcall : ∀ m c r s', Φ m c r s' → R m s') :
    Relies R env Φ p (fun a s' => Q a s' ∧ R s s') s := by
  induction p generalizing s with
  | ret a => exact ⟨h, hrefl s⟩
  | call c next ih =>
    rw [relies_call] at h ⊢
    intro m hm r s' hanswer
    obtain ⟨hΦ, hrest⟩ := h m hm r s' hanswer
    refine ⟨hΦ, (ih r hrest).mono ?_⟩
    intro a s'' ⟨hQ, hR⟩
    exact ⟨hQ, htrans s s' s'' (htrans s m s' hm (hcall m c r s' hΦ)) hR⟩

variable {trace : List (Event Call Answer S)} {x : Option α}

/-- **Soundness**: the obligations hold in every execution under interference, also in one that is
cut short. -/
theorem relies_exec {s' : S}
    (h : Relies R env Φ p Q s) (hexec : Exec (Env.under R env) s p trace s' x) :
    (∀ e ∈ trace, ∃ m, R e.before m ∧ Φ m e.call e.answer e.after) ∧ ∀ a, x = some a → Q a s' := by
  induction hexec with
  | stop s p => exact ⟨by simp, by simp⟩
  | ret s a =>
    refine ⟨by simp, ?_⟩
    intro b hb
    exact Option.some.inj hb ▸ h
  | call hanswer _ ih =>
    obtain ⟨m, hm, hcall⟩ := hanswer
    obtain ⟨hΦ, hrest⟩ := relies_call.mp h m hm _ _ hcall
    obtain ⟨hcalls, hresult⟩ := ih hrest
    exact ⟨List.forall_mem_cons.mpr ⟨⟨m, hm, hΦ⟩, hcalls⟩, hresult⟩

/-! ## Pools -/

/-- A program that is being run: its job, the state in which it was begun, and what is left of
it. -/
structure Thread (Call : Type) (Answer : Call → Type) (S J α : Type) where
  job : J
  start : S
  rest : Prog Call Answer α

/-- A shared state, and what each worker is running. -/
structure Pool (ι : Type) (Call : Type) (Answer : Call → Type) (S J α : Type) where
  state : S
  running : ι → Option (Thread Call Answer S J α)

/-- A call that a worker makes in a pool. -/
structure PoolCall (ι : Type) (Call : Type) (Answer : Call → Type) (S J : Type) where
  worker : ι
  job : J
  start : S
  event : Event Call Answer S

namespace Pool

variable [DecidableEq ι]

/-- A worker begins a job, returns, is stopped or makes its next call, or the state changes from
outside. -/
inductive Step (env : ι → Env Call Answer S) (prog : ι → J → Prog Call Answer α)
    (outside : S → S → Prop) :
    Pool ι Call Answer S J α → Option (PoolCall ι Call Answer S J) → Pool ι Call Answer S J α → Prop
  | begin (pool : Pool ι Call Answer S J α) (i : ι) (job : J) (hidle : pool.running i = none) :
      Step env prog outside pool none
        { pool with running := Function.update pool.running i (some ⟨job, pool.state, prog i job⟩) }
  | stop (pool : Pool ι Call Answer S J α) (i : ι) :
      Step env prog outside pool none
        { pool with running := Function.update pool.running i none }
  | call (pool : Pool ι Call Answer S J α) (i : ι) {job : J} {start s' : S} {c : Call}
      {next : Answer c → Prog Call Answer α} {r : Answer c}
      (hrunning : pool.running i = some ⟨job, start, .call c next⟩)
      (hanswer : env i pool.state c r s') :
      Step env prog outside pool (some ⟨i, job, start, ⟨pool.state, c, r, s'⟩⟩)
        ⟨s', Function.update pool.running i (some ⟨job, start, next r⟩)⟩
  | outside (pool : Pool ι Call Answer S J α) {s' : S} (hchange : outside pool.state s') :
      Step env prog outside pool none { pool with state := s' }

inductive Run (env : ι → Env Call Answer S) (prog : ι → J → Prog Call Answer α)
    (outside : S → S → Prop) (pool : Pool ι Call Answer S J α) :
    List (PoolCall ι Call Answer S J) → Pool ι Call Answer S J α → Prop
  | refl : Run env prog outside pool [] pool
  | step {log : List (PoolCall ι Call Answer S J)} {pool' pool'' : Pool ι Call Answer S J α}
      {e : Option (PoolCall ι Call Answer S J)} (hrun : Run env prog outside pool log pool')
      (hstep : Step env prog outside pool' e pool'') :
      Run env prog outside pool (log ++ e.toList) pool''

def idle (s : S) : Pool ι Call Answer S J α := ⟨s, fun _ => none⟩

variable {prog : ι → J → Prog Call Answer α} {outside : S → S → Prop}

theorem run_of_exec {env : ι → Env Call Answer S} {i : ι} {job : J} {start s' : S}
    (hexec : Exec (env i) s p trace s' x) :
    ∀ {first pool : Pool ι Call Answer S J α} {log : List (PoolCall ι Call Answer S J)},
      Run env prog outside first log pool → pool.state = s →
      pool.running i = some ⟨job, start, p⟩ → ∃ pool',
        Run env prog outside first (log ++ trace.map fun e => ⟨i, job, start, e⟩) pool' ∧
          pool'.state = s' := by
  induction hexec with
  | stop s p =>
    intro first pool log hrun hstate _
    exact ⟨pool, by simpa using hrun, hstate⟩
  | ret s a =>
    intro first pool log hrun hstate _
    exact ⟨pool, by simpa using hrun, hstate⟩
  | call hanswer _ ih =>
    intro first pool log hrun hstate hrunning
    subst hstate
    obtain ⟨pool', hrun', hstate'⟩ := ih (hrun.step (.call pool i hrunning hanswer)) rfl (by simp)
    exact ⟨pool', by simpa using hrun', hstate'⟩

theorem run_alone {env : ι → Env Call Answer S} {i : ι} {job : J} {s' : S}
    (hexec : Exec (env i) s (prog i job) trace s' x) :
    ∃ pool', Run env prog outside (idle s) (trace.map fun e => ⟨i, job, s, e⟩) pool' ∧
      pool'.state = s' := by
  have hbegin : Run env prog outside (idle s) [] _ := Run.refl.step (.begin (idle s) i job rfl)
  exact run_of_exec hexec hbegin rfl (by simp [idle])

/-! ## The rule for runs -/

/-- What each worker relies on and guarantees: the invariant `I` of the state, the changes `R i`
that worker `i` tolerates, and the obligation `Φ i job start` on its calls. -/
structure Discipline (env : ι → Env Call Answer S) (prog : ι → J → Prog Call Answer α)
    (outside : S → S → Prop) (I : S → Prop) (R : ι → S → S → Prop)
    (Φ : ι → J → S → CallProp Call Answer S) (Q : ι → J → S → α → S → Prop) : Prop where
  refl : ∀ i s, R i s s
  trans : ∀ i s m s', R i s m → R i m s' → R i s s'
  meets : ∀ i job s, I s → Relies (R i) (env i) (Φ i job s) (prog i job) (Q i job s) s
  keeps : ∀ i job start s c r s', I s → env i s c r s' → Φ i job start s c r s' → I s'
  apart : ∀ i k, k ≠ i → ∀ job start s c r s', I s → env k s c r s' → Φ k job start s c r s' →
    R i s s'
  outside_keeps : ∀ s s', I s → outside s s' → I s'
  outside_apart : ∀ i s s', I s → outside s s' → R i s s'

/-- Each running program still meets its obligations, from a state that it has not seen change
but for interference. -/
def Sound (env : ι → Env Call Answer S) (R : ι → S → S → Prop)
    (Φ : ι → J → S → CallProp Call Answer S) (Q : ι → J → S → α → S → Prop)
    (pool : Pool ι Call Answer S J α) : Prop :=
  ∀ i thread, pool.running i = some thread → ∃ s, R i s pool.state ∧
    Relies (R i) (env i) (Φ i thread.job thread.start) thread.rest
      (Q i thread.job thread.start) s

section Rule

variable {env : ι → Env Call Answer S} {prog : ι → J → Prog Call Answer α}
  {outside : S → S → Prop} {I : S → Prop} {R : ι → S → S → Prop}
  {Φ : ι → J → S → CallProp Call Answer S} {Q : ι → J → S → α → S → Prop}

omit [DecidableEq ι] in
theorem sound_idle (s : S) : Sound env R Φ Q (idle s : Pool ι Call Answer S J α) :=
  fun _ _ h => nomatch h

/-- The call of a step meets the obligation of its worker. -/
def Obeys (Φ : ι → J → S → CallProp Call Answer S) (e : PoolCall ι Call Answer S J) : Prop :=
  Φ e.worker e.job e.start e.event.before e.event.call e.event.answer e.event.after

variable {pool pool' : Pool ι Call Answer S J α}

/-- **Step**: a step keeps the invariant and the obligations of every worker. -/
theorem Discipline.step (hd : Discipline env prog outside I R Φ Q)
    {e : Option (PoolCall ι Call Answer S J)} (hstep : Step env prog outside pool e pool')
    (hI : I pool.state) (hsound : Sound env R Φ Q pool) :
    I pool'.state ∧ Sound env R Φ Q pool' ∧ ∀ c ∈ e, Obeys Φ c := by
  cases hstep with
  | begin i job hidle =>
    refine ⟨hI, ?_, by simp⟩
    intro k thread hthread
    by_cases hk : k = i
    · subst hk
      simp only [Function.update_self, Option.some.injEq] at hthread
      subst hthread
      exact ⟨pool.state, hd.refl k _, hd.meets k job _ hI⟩
    · simp only [Function.update_of_ne hk] at hthread
      exact hsound k thread hthread
  | stop i =>
    refine ⟨hI, ?_, by simp⟩
    intro k thread hthread
    by_cases hk : k = i
    · subst hk
      simp at hthread
    · simp only [Function.update_of_ne hk] at hthread
      exact hsound k thread hthread
  | call i hrunning hanswer =>
    obtain ⟨s, hs, hmeets⟩ := hsound i _ hrunning
    obtain ⟨hobeys, hrest⟩ := relies_call.mp hmeets _ hs _ _ hanswer
    refine ⟨hd.keeps i _ _ _ _ _ _ hI hanswer hobeys, ?_, ?_⟩
    · intro k thread hthread
      by_cases hk : k = i
      · subst hk
        simp only [Function.update_self, Option.some.injEq] at hthread
        subst hthread
        exact ⟨_, hd.refl k _, hrest⟩
      · -- the other workers see the call as interference
        simp only [Function.update_of_ne hk] at hthread
        obtain ⟨m, hm, hother⟩ := hsound k thread hthread
        have hapart := hd.apart k i (Ne.symm hk) _ _ _ _ _ _ hI hanswer hobeys
        exact ⟨m, hd.trans k _ _ _ hm hapart, hother⟩
    · intro c hc
      simp only [Option.mem_def, Option.some.injEq] at hc
      subst hc
      exact hobeys
  | outside hchange =>
    refine ⟨hd.outside_keeps _ _ hI hchange, ?_, by simp⟩
    intro k thread hthread
    obtain ⟨m, hm, hother⟩ := hsound k thread hthread
    exact ⟨m, hd.trans k _ _ _ hm (hd.outside_apart k _ _ hI hchange), hother⟩

variable {log : List (PoolCall ι Call Answer S J)}

/-- **Run**: in every run the invariant holds, and every call meets the obligation of its
worker. -/
theorem Discipline.run (hd : Discipline env prog outside I R Φ Q)
    (hrun : Run env prog outside pool log pool')
    (hI : I pool.state) (hsound : Sound env R Φ Q pool) :
    I pool'.state ∧ Sound env R Φ Q pool' ∧ ∀ e ∈ log, Obeys Φ e := by
  induction hrun with
  | refl => exact ⟨hI, hsound, by simp⟩
  | step _ hstep ih =>
    obtain ⟨hI', hsound', hlog⟩ := ih
    obtain ⟨hI'', hsound'', hlast⟩ := hd.step hstep hI' hsound'
    refine ⟨hI'', hsound'', ?_⟩
    intro e he
    rcases List.mem_append.mp he with he | he
    · exact hlog e he
    · exact hlast e (Option.mem_toList.mp he)

/-- **Run**: a relation between the calls and the state holds in every run, if calls that meet their
obligations and changes from outside keep it. -/
theorem Discipline.history (hd : Discipline env prog outside I R Φ Q)
    {P : List (PoolCall ι Call Answer S J) → S → Prop}
    (hcall : ∀ log e, I e.event.before →
      env e.worker e.event.before e.event.call e.event.answer e.event.after → Obeys Φ e →
      P log e.event.before → P (log ++ [e]) e.event.after)
    (houtside : ∀ log s s', I s → outside s s' → P log s → P log s')
    (hrun : Run env prog outside pool log pool') (hI : I pool.state) (hsound : Sound env R Φ Q pool)
    (hP : P [] pool.state) : P log pool'.state := by
  induction hrun with
  | refl => exact hP
  | step hrun hstep ih =>
    obtain ⟨hI', hsound', -⟩ := hd.run hrun hI hsound
    have hobeys := (hd.step hstep hI' hsound').2.2
    cases hstep with
    | begin => simpa using ih
    | stop => simpa using ih
    | call i hrunning hanswer => exact hcall _ _ hI' hanswer (hobeys _ rfl) ih
    | outside hchange => simpa using houtside _ _ _ hI' hchange ih

end Rule

end Pool

end Effects
