import Mathlib.Control.Basic
import Mathlib.Logic.Function.Basic

/-!
# `Cacher.Lib.Prog`: programs over operations, alone and interleaved

A `Prog Op Ans α` is a sequential program that calls operations `op : Op`, receives an
answer in `Ans op`, and returns an `α`. The program text fixes only which calls are
made. What a call does is a `Handler`, a function on a shared state, so the same
program can be run alone (`exec`) or one call at a time among others (`Pool.stepAt`).

* `exec_bind` and its companions execute a program symbolically.
* `After` is the weakest precondition of a program. `after_bind` and `After.mono` take a
  program apart, so that each call is reasoned about once.
* `exec_inv` carries an invariant of the state through a whole program, given that the
  operations the program uses (`Uses`) keep it.
* `Pool.run_inv_of_guarded` does the same for every interleaving of a pool of programs
  whose every step meets a condition.
* `Among` says what one program does while others may interfere between its calls, and
  `Pool.among_run` puts the programs of a pool together.
-/

set_option autoImplicit false

/-- A program that calls operations and returns an `α`. -/
inductive Prog (Op : Type) (Ans : Op → Type) (α : Type) where
  /-- The program has returned. -/
  | done (a : α)
  /-- The program calls `op` and continues with its answer. -/
  | call (op : Op) (next : Ans op → Prog Op Ans α)

namespace Prog

variable {Op : Type} {Ans : Op → Type} {α β σ : Type}

/-- Sequencing. -/
def bind : Prog Op Ans α → (α → Prog Op Ans β) → Prog Op Ans β
  | done a, f => f a
  | call op next, f => call op fun x => bind (next x) f

instance : Monad (Prog Op Ans) where
  pure := done
  bind := bind

instance : LawfulMonad (Prog Op Ans) := by
  refine LawfulMonad.mk' _ (fun p => ?_) (fun _ _ => rfl) (fun p f g => ?_)
  · induction p with
    | done a => rfl
    | call op next ih => exact congrArg (call op) (funext ih)
  · induction p with
    | done a => rfl
    | call op next ih => exact congrArg (call op) (funext ih)

/-- A single call. -/
def perform (op : Op) : Prog Op Ans (Ans op) := call op done

/-- What a call does to the shared state, and its answer. -/
abbrev Handler (σ Op : Type) (Ans : Op → Type) : Type := σ → (op : Op) → Ans op × σ

/-- Runs a program to its end. -/
def exec (h : Handler σ Op Ans) : Prog Op Ans α → σ → α × σ
  | done a, s => (a, s)
  | call op next, s => exec h (next (h s op).1) (h s op).2

@[simp] theorem exec_bind (h : Handler σ Op Ans) (p : Prog Op Ans α) (f : α → Prog Op Ans β)
    (s : σ) : exec h (p >>= f) s = exec h (f (exec h p s).1) (exec h p s).2 := by
  induction p generalizing s with
  | done a => rfl
  | call op next ih => exact ih (h s op).1 (h s op).2

/-- Every operation the program can call satisfies `A`. -/
def Uses (A : Op → Prop) : Prog Op Ans α → Prop
  | done _ => True
  | call op next => A op ∧ ∀ x, Uses A (next x)

theorem uses_pure (A : Op → Prop) (a : α) : Uses A (pure a : Prog Op Ans α) := trivial

theorem uses_perform {A : Op → Prop} {op : Op} (h : A op) :
    Uses A (perform op : Prog Op Ans (Ans op)) := ⟨h, fun _ => trivial⟩

theorem uses_of_forall {A : Op → Prop} (h : ∀ op, A op) (p : Prog Op Ans α) : Uses A p := by
  induction p with
  | done a => trivial
  | call op next ih => exact ⟨h op, ih⟩

theorem uses_bind {A : Op → Prop} {p : Prog Op Ans α} {f : α → Prog Op Ans β}
    (hp : Uses A p) (hf : ∀ a, Uses A (f a)) : Uses A (p >>= f) := by
  induction p with
  | done a => exact hf a
  | call op next ih => exact ⟨hp.1, fun x => ih x (hp.2 x)⟩

theorem Uses.mono {A B : Op → Prop} (h : ∀ op, A op → B op) {p : Prog Op Ans α} (hp : Uses A p) :
    Uses B p := by
  induction p with
  | done a => trivial
  | call op next ih => exact ⟨h op hp.1, fun x => ih x (hp.2 x)⟩

/-- The result of a program that has returned. -/
def result? : Prog Op Ans α → Option α
  | done a => some a
  | call _ _ => none

/-- The next call of a program that has not returned. -/
def nextOp? : Prog Op Ans α → Option Op
  | done _ => none
  | call op _ => some op

theorem uses_foldlM {A : Op → Prop} {γ : Type} {f : α → γ → Prog Op Ans α}
    (hf : ∀ a x, Uses A (f a x)) (l : List γ) (a : α) : Uses A (l.foldlM f a) := by
  induction l generalizing a with
  | nil => exact uses_pure A a
  | cons x l ih =>
      rw [List.foldlM_cons]
      exact uses_bind (hf a x) ih

/-- An invariant that every used operation keeps holds after the program. -/
theorem exec_inv {h : Handler σ Op Ans} {A : Op → Prop} {I : σ → Prop}
    (hstep : ∀ s op, A op → I s → I (h s op).2) {p : Prog Op Ans α} (hp : Uses A p) {s : σ}
    (hs : I s) : I (exec h p s).2 := by
  induction p generalizing s with
  | done a => exact hs
  | call op next ih => exact ih _ (hp.2 _) (hstep s op hp.1 hs)

/-! ### Weakest preconditions -/

/-- `Q` holds of the result of the program and of the state it ends in. -/
def After (h : Handler σ Op Ans) (p : Prog Op Ans α) (s : σ) (Q : α → σ → Prop) : Prop :=
  Q (exec h p s).1 (exec h p s).2

@[simp] theorem after_pure {h : Handler σ Op Ans} {a : α} {s : σ} {Q : α → σ → Prop} :
    After h (pure a) s Q ↔ Q a s := Iff.rfl

/-- A sequence is reasoned about one program after the other. -/
theorem after_bind {h : Handler σ Op Ans} {p : Prog Op Ans α} {f : α → Prog Op Ans β} {s : σ}
    {Q : β → σ → Prop} : After h (p >>= f) s Q ↔ After h p s fun a s' => After h (f a) s' Q := by
  unfold After
  rw [exec_bind]

/-- A weaker postcondition follows. -/
theorem After.mono {h : Handler σ Op Ans} {p : Prog Op Ans α} {s : σ} {Q R : α → σ → Prop}
    (hQ : After h p s Q) (hR : ∀ a s', Q a s' → R a s') : After h p s R := hR _ _ hQ

/-- A loop keeps what each of its turns keeps. -/
theorem after_foldlM {γ : Type} {h : Handler σ Op Ans} {f : α → γ → Prog Op Ans α}
    {I : List γ → α → σ → Prop} {l : List γ} {a : α} {s : σ} (hnil : I [] a s)
    (hstep : ∀ done x a s, I done a s → x ∈ l → After h (f a x) s (I (done ++ [x]))) :
    After h (l.foldlM f a) s (I l) := by
  -- The list splits into the turns made and those to come.
  have hgen : ∀ (rest done : List γ) (a : α) (s : σ), (∀ x ∈ rest, x ∈ l) → I done a s →
      After h (rest.foldlM f a) s (I (done ++ rest)) := by
    intro rest
    induction rest with
    | nil =>
        intro done a s _ hI
        rw [List.append_nil]
        exact hI
    | cons x rest ih =>
        intro done a s hmem hI
        rw [List.foldlM_cons, after_bind]
        refine (hstep done x a s hI (hmem x List.mem_cons_self)).mono fun a' s' hI' => ?_
        have := ih (done ++ [x]) a' s' (fun y hy => hmem y (List.mem_cons_of_mem _ hy)) hI'
        rwa [List.append_assoc] at this
  exact hgen l [] a s (fun _ hx => hx) hnil

/-! ### Whatever is answered -/

section Always

variable {ρ : Type} {A : ρ → Op → Prop} {T : ρ → (op : Op) → Ans op → ρ → Prop}

/-- The program makes only calls that `A` grants and returns with `Q`, wherever `T` takes it.
`T s op x s'` says that in `s` the call `op` may be answered `x`, and that it leads to `s'`. -/
def Always (A : ρ → Op → Prop) (T : ρ → (op : Op) → Ans op → ρ → Prop) :
    Prog Op Ans α → ρ → (α → ρ → Prop) → Prop
  | done a, s, Q => Q a s
  | call op next, s, Q => A s op ∧ ∀ x s', T s op x s' → Always A T (next x) s' Q

@[simp] theorem always_pure {a : α} {s : ρ} {Q : α → ρ → Prop} :
    Always A T (pure a : Prog Op Ans α) s Q ↔ Q a s := Iff.rfl

@[simp] theorem always_perform {op : Op} {s : ρ} {Q : Ans op → ρ → Prop} :
    Always A T (perform op : Prog Op Ans (Ans op)) s Q
      ↔ A s op ∧ ∀ x s', T s op x s' → Q x s' := Iff.rfl

theorem always_bind {p : Prog Op Ans α} {f : α → Prog Op Ans β} {s : ρ} {Q : β → ρ → Prop} :
    Always A T (p >>= f) s Q ↔ Always A T p s fun a s' => Always A T (f a) s' Q := by
  induction p generalizing s with
  | done a => exact Iff.rfl
  | call op next ih =>
      exact and_congr_right fun _ => forall_congr' fun x => forall_congr' fun s' =>
        imp_congr_right fun _ => ih x

theorem Always.mono {p : Prog Op Ans α} {s : ρ} {Q R : α → ρ → Prop} (hp : Always A T p s Q)
    (hQ : ∀ a s', Q a s' → R a s') : Always A T p s R := by
  induction p generalizing s with
  | done a => exact hQ a s hp
  | call op next ih => exact ⟨hp.1, fun x s' hT => ih x (hp.2 x s' hT)⟩

/-- A loop keeps what each of its turns keeps. -/
theorem always_foldlM {γ : Type} {f : α → γ → Prog Op Ans α} {I : List γ → α → ρ → Prop}
    {l : List γ} {a : α} {s : ρ} (hnil : I [] a s)
    (hstep : ∀ done x a s, I done a s → x ∈ l → Always A T (f a x) s (I (done ++ [x]))) :
    Always A T (l.foldlM f a) s (I l) := by
  -- The list splits into the turns made and those to come.
  have hgen : ∀ (rest done : List γ) (a : α) (s : ρ), (∀ x ∈ rest, x ∈ l) → I done a s →
      Always A T (rest.foldlM f a) s (I (done ++ rest)) := by
    intro rest
    induction rest with
    | nil =>
        intro done a s _ hI
        rw [List.append_nil]
        exact hI
    | cons x rest ih =>
        intro done a s hmem hI
        rw [List.foldlM_cons, always_bind]
        refine (hstep done x a s hI (hmem x List.mem_cons_self)).mono fun a' s' hI' => ?_
        have := ih (done ++ [x]) a' s' (fun y hy => hmem y (List.mem_cons_of_mem _ hy)) hI'
        rwa [List.append_assoc] at this
  exact hgen l [] a s (fun _ hx => hx) hnil

/-- A loop keeps what each of its turns keeps, and a turn knows what is still to come. -/
theorem always_foldlM_at {γ : Type} {f : α → γ → Prog Op Ans α} {I : List γ → α → ρ → Prop}
    {l : List γ} {a : α} {s : ρ} (hnil : I [] a s)
    (hstep : ∀ done x rest a s, l = done ++ x :: rest → I done a s →
      Always A T (f a x) s (I (done ++ [x]))) :
    Always A T (l.foldlM f a) s (I l) := by
  -- The list splits into the turns made and those to come.
  have hgen : ∀ (rest done : List γ) (a : α) (s : ρ), l = done ++ rest → I done a s →
      Always A T (rest.foldlM f a) s (I l) := by
    intro rest
    induction rest with
    | nil =>
        intro done a s hl hI
        rw [List.append_nil] at hl
        rw [hl]
        exact hI
    | cons x rest ih =>
        intro done a s hl hI
        rw [List.foldlM_cons, always_bind]
        refine (hstep done x rest a s hl hI).mono fun a' s' hI' => ih (done ++ [x]) a' s' ?_ hI'
        rw [hl, List.append_assoc]
        rfl
  exact hgen l [] a s rfl hnil

/-- A loop reaches `R` when one of its turns does and no turn leaves it. -/
theorem always_foldlM_reaches {γ : Type} {f : α → γ → Prog Op Ans α} {I R : α → ρ → Prop}
    {l : List γ} {x : γ} {a : α} {s : ρ} (hx : x ∈ l) (hI : I a s)
    (hturn : ∀ a s, I a s → Always A T (f a x) s fun a' s' => I a' s' ∧ R a' s')
    (hkeep : ∀ y ∈ l, ∀ a s, I a s →
      Always A T (f a y) s fun a' s' => I a' s' ∧ (R a s → R a' s')) :
    Always A T (l.foldlM f a) s fun a' s' => I a' s' ∧ R a' s' := by
  refine (always_foldlM (I := fun done a s => I a s ∧ (x ∈ done → R a s))
    ⟨hI, fun h => absurd h List.not_mem_nil⟩ fun done y a s hdone hy => ?_).mono
      fun a s' h => ⟨h.1, h.2 hx⟩
  by_cases hyx : y = x
  · subst hyx
    exact (hturn a s hdone.1).mono fun _ _ h => ⟨h.1, fun _ => h.2⟩
  · refine (hkeep y hy a s hdone.1).mono fun _ _ h => ⟨h.1, fun hmem => h.2 (hdone.2 ?_)⟩
    rcases List.mem_append.mp hmem with hmem | hmem
    · exact hmem
    · exact absurd (List.mem_singleton.mp hmem).symm hyx

/-- Whatever the program is answered, it returns with `Q`. -/
abbrev Returns (p : Prog Op Ans α) (Q : α → Prop) : Prop :=
  Always (fun _ _ => True) (fun _ _ _ _ => True) p () fun a _ => Q a

/-- What holds of every result holds of the result of a run. -/
theorem Always.exec_result {h : Handler σ Op Ans} {p : Prog Op Ans α} {Q : α → Prop}
    (hp : Returns p Q) (s : σ) : Q (exec h p s).1 := by
  induction p generalizing s with
  | done a => exact hp
  | call op next ih => exact ih _ (hp.2 _ () trivial) _

/-- What holds of every result holds here. -/
theorem Always.and_returns {p : Prog Op Ans α} {s : ρ} {Q : α → ρ → Prop} {R : α → Prop}
    (hp : Always A T p s Q) (hR : Returns p R) : Always A T p s fun a s' => R a ∧ Q a s' := by
  induction p generalizing s with
  | done a => exact ⟨hR, hp⟩
  | call op next ih => exact ⟨hp.1, fun x s' hT => ih x (hp.2 x s' hT) (hR.2 x () trivial)⟩

end Always

/-- What a program uses, it uses whatever it is answered. -/
theorem Uses.always {B : Op → Prop} {ρ : Type} {T : ρ → (op : Op) → Ans op → ρ → Prop}
    {p : Prog Op Ans α} (hp : Uses B p) (s : ρ) :
    Always (fun _ => B) T p s fun _ _ => True := by
  induction p generalizing s with
  | done a => trivial
  | call op next ih => exact ⟨hp.1, fun x s' _ => ih x (hp.2 x) s'⟩

/-- The calls a program has made, with their answers. -/
abbrev History (Op : Type) (Ans : Op → Type) : Type := List (Σ op, Ans op)

/-- Any answer is possible, and what is tracked is the history. -/
def Recording (l : History Op Ans) (op : Op) (x : Ans op) (l' : History Op Ans) : Prop :=
  l' = l ++ [⟨op, x⟩]

/-- What a program obeys whatever is answered, it uses. -/
theorem Always.uses {A : History Op Ans → Op → Prop} {B : Op → Prop} {p : Prog Op Ans α}
    {l : History Op Ans} {Q : α → History Op Ans → Prop} (hp : Always A Recording p l Q)
    (hB : ∀ l op, A l op → B op) : Uses B p := by
  induction p generalizing l with
  | done a => trivial
  | call op next ih => exact ⟨hB l op hp.1, fun x => ih x (hp.2 x _ rfl)⟩

/-- A call on the shared state, after others may have moved it as far as `Rely` lets them. -/
def Relying (h : Handler σ Op Ans) (Rely : σ → σ → Prop) (s : σ) (op : Op) (x : Ans op)
    (s' : σ) : Prop := ∃ s₁, Rely s s₁ ∧ h s₁ op = (x, s')

/-- What a program does among others it does alone. -/
theorem Always.after {h : Handler σ Op Ans} {Rely : σ → σ → Prop} {A : σ → Op → Prop}
    (hrefl : ∀ s, Rely s s) {p : Prog Op Ans α} {s : σ} {Q : α → σ → Prop}
    (hp : Always A (Relying h Rely) p s Q) : After h p s Q := by
  induction p generalizing s with
  | done a => exact hp
  | call op next ih => exact ih _ (hp.2 _ _ ⟨s, hrefl s, rfl⟩)

/-- Steps of the others do not matter to what they cannot undo. -/
theorem Always.rely {h : Handler σ Op Ans} {Rely : σ → σ → Prop} {A : σ → Op → Prop}
    {p : Prog Op Ans α} {s s' : σ} {Q : α → σ → Prop}
    (htrans : ∀ s₁ s₂ s₃, Rely s₁ s₂ → Rely s₂ s₃ → Rely s₁ s₃)
    (hA : ∀ op, A s op → A s' op) (hQ : ∀ a, Q a s → Q a s')
    (hp : Always A (Relying h Rely) p s Q) (hs : Rely s s') :
    Always A (Relying h Rely) p s' Q := by
  cases p with
  | done a => exact hQ a hp
  | call op next =>
      refine ⟨hA op hp.1, fun x s₂ hT => hp.2 x s₂ ?_⟩
      obtain ⟨s₁, hrely, hcall⟩ := hT
      exact ⟨s₁, htrans _ _ _ hs hrely, hcall⟩

/-! ### Interleaving -/

/-- Programs running over one shared state. -/
structure Pool (σ Op : Type) (Ans : Op → Type) (α : Type) where
  /-- What each program still has to do. -/
  threads : List (Prog Op Ans α)
  /-- The shared state. -/
  shared : σ

namespace Pool

/-- Thread `i` makes its next call. A finished thread does nothing. -/
def stepAt (h : Handler σ Op Ans) (c : Pool σ Op Ans α) (i : Nat) : Pool σ Op Ans α :=
  match c.threads[i]? with
  | some (call op next) =>
    { threads := c.threads.set i (next (h c.shared op).1), shared := (h c.shared op).2 }
  | some (done _) => c
  | none => c

theorem stepAt_call {h : Handler σ Op Ans} {c : Pool σ Op Ans α} {i : Nat} {op : Op}
    {next : Ans op → Prog Op Ans α} (hi : c.threads[i]? = some (call op next)) :
    stepAt h c i
      = { threads := c.threads.set i (next (h c.shared op).1), shared := (h c.shared op).2 } := by
  unfold stepAt
  rw [hi]

theorem stepAt_done {h : Handler σ Op Ans} {c : Pool σ Op Ans α} {i : Nat} {a : α}
    (hi : c.threads[i]? = some (done a)) : stepAt h c i = c := by
  unfold stepAt
  rw [hi]

theorem stepAt_none {h : Handler σ Op Ans} {c : Pool σ Op Ans α} {i : Nat}
    (hi : c.threads[i]? = none) : stepAt h c i = c := by
  unfold stepAt
  rw [hi]

/-- A step leaves the other threads alone. -/
theorem threads_stepAt_of_ne {h : Handler σ Op Ans} {c : Pool σ Op Ans α} {i k : Nat}
    (hki : k ≠ i) : (stepAt h c i).threads[k]? = c.threads[k]? := by
  unfold stepAt
  split
  · exact List.getElem?_set_ne hki.symm
  · rfl
  · rfl

/-- A step does nothing, or it is the next call of its thread. -/
theorem stepAt_cases (h : Handler σ Op Ans) (c : Pool σ Op Ans α) (i : Nat) :
    stepAt h c i = c ∨ ∃ op next, c.threads[i]? = some (call op next) := by
  cases hi : c.threads[i]? with
  | none => exact Or.inl (stepAt_none hi)
  | some p =>
      cases p with
      | done a => exact Or.inl (stepAt_done hi)
      | call op next => exact Or.inr ⟨op, next, rfl⟩

/-- After a call, its thread goes on with the answer and the others are where they were. -/
theorem threads_stepAt {h : Handler σ Op Ans} {c : Pool σ Op Ans α} {i : Nat} {op : Op}
    {next : Ans op → Prog Op Ans α} (hi : c.threads[i]? = some (call op next)) {k : Nat}
    {p : Prog Op Ans α} (hk : (stepAt h c i).threads[k]? = some p) :
    k = i ∧ p = next (h c.shared op).1 ∨ k ≠ i ∧ c.threads[k]? = some p := by
  by_cases hki : k = i
  · subst hki
    rw [stepAt_call hi, List.getElem?_set_self (List.getElem?_eq_some_iff.mp hi).1] at hk
    exact Or.inl ⟨rfl, (Option.some.inj hk).symm⟩
  · rw [threads_stepAt_of_ne hki] at hk
    exact Or.inr ⟨hki, hk⟩

/-- An interleaving: the schedule names the thread of each step. -/
def run (h : Handler σ Op Ans) (c : Pool σ Op Ans α) (schedule : List Nat) :
    Pool σ Op Ans α := schedule.foldl (stepAt h) c

/-- Every step of the interleaving is taken in a state that satisfies `G`. -/
def Guarded (h : Handler σ Op Ans) (G : Pool σ Op Ans α → Nat → Prop) :
    Pool σ Op Ans α → List Nat → Prop
  | _, [] => True
  | c, i :: schedule => G c i ∧ Guarded h G (stepAt h c i) schedule

instance decidableGuarded {h : Handler σ Op Ans} {G : Pool σ Op Ans α → Nat → Prop}
    [∀ c i, Decidable (G c i)] : ∀ c schedule, Decidable (Guarded h G c schedule)
  | _, [] => .isTrue trivial
  | c, i :: schedule =>
    have := decidableGuarded (h := h) (G := G) (stepAt h c i) schedule
    inferInstanceAs (Decidable (_ ∧ _))

@[simp] theorem run_cons (h : Handler σ Op Ans) (c : Pool σ Op Ans α) (i : Nat)
    (schedule : List Nat) : run h c (i :: schedule) = run h (stepAt h c i) schedule := rfl

/-- What every guarded step keeps holds after every guarded interleaving. -/
theorem run_inv_of_guarded {h : Handler σ Op Ans} {G : Pool σ Op Ans α → Nat → Prop}
    {I : Pool σ Op Ans α → Prop} (hstep : ∀ c i, G c i → I c → I (stepAt h c i))
    {c : Pool σ Op Ans α} {schedule : List Nat} (hg : Guarded h G c schedule) (hc : I c) :
    I (run h c schedule) := by
  induction schedule generalizing c with
  | nil => exact hc
  | cons i schedule ih => exact ih hg.2 (hstep c i hg.1 hc)

@[simp] theorem run_append (h : Handler σ Op Ans) (c : Pool σ Op Ans α) (s₁ s₂ : List Nat) :
    run h c (s₁ ++ s₂) = run h (run h c s₁) s₂ := List.foldl_append

/-- A guarded interleaving can be cut in two. -/
theorem guarded_append {h : Handler σ Op Ans} {G : Pool σ Op Ans α → Nat → Prop}
    {c : Pool σ Op Ans α} {s₁ s₂ : List Nat} :
    Guarded h G c (s₁ ++ s₂) ↔ Guarded h G c s₁ ∧ Guarded h G (run h c s₁) s₂ := by
  induction s₁ generalizing c with
  | nil => simp [Guarded, run]
  | cons i s₁ ih => simp [Guarded, ih, and_assoc]

/-- What a guard and an invariant imply is a guard too. -/
theorem guarded_of_inv {h : Handler σ Op Ans} {G P : Pool σ Op Ans α → Nat → Prop}
    {I : Pool σ Op Ans α → Prop} (hstep : ∀ c i, G c i → I c → I (stepAt h c i))
    (hP : ∀ c i, G c i → I c → P c i) {c : Pool σ Op Ans α} {schedule : List Nat}
    (hg : Guarded h G c schedule) (hc : I c) : Guarded h P c schedule := by
  induction schedule generalizing c with
  | nil => trivial
  | cons i schedule ih => exact ⟨hP c i hg.1 hc, ih hg.2 (hstep c i hg.1 hc)⟩

/-- A guarded interleaving, step by step. -/
theorem guarded_iff {h : Handler σ Op Ans} {G : Pool σ Op Ans α → Nat → Prop}
    {c : Pool σ Op Ans α} {schedule : List Nat} :
    Guarded h G c schedule
      ↔ ∀ k i, schedule[k]? = some i → G (run h c (schedule.take k)) i := by
  induction schedule generalizing c with
  | nil => simp [Guarded]
  | cons j schedule ih =>
      rw [Guarded, ih]
      constructor
      · rintro ⟨hj, hrest⟩ k i hk
        cases k with
        | zero =>
            cases hk
            exact hj
        | succ k => exact hrest k i hk
      · intro hall
        exact ⟨hall 0 j rfl, fun k i hk => hall (k + 1) i hk⟩

/-- A thread that is never scheduled stays where it is. -/
theorem run_of_notMem {h : Handler σ Op Ans} {c : Pool σ Op Ans α} {schedule : List Nat} {i : Nat}
    (hi : i ∉ schedule) : (run h c schedule).threads[i]? = c.threads[i]? := by
  induction schedule generalizing c with
  | nil => rfl
  | cons j schedule ih =>
      rw [run_cons, ih (fun hmem => hi (List.mem_cons_of_mem _ hmem))]
      exact threads_stepAt_of_ne fun heq => hi (by rw [heq]; exact List.mem_cons_self)

/-- What a thread can call, it can call from the start. -/
theorem uses_run {h : Handler σ Op Ans} {A : Op → Prop} {c : Pool σ Op Ans α} {i : Nat}
    (hc : ∀ p, c.threads[i]? = some p → Uses A p) (schedule : List Nat) {p : Prog Op Ans α}
    (hp : (run h c schedule).threads[i]? = some p) : Uses A p := by
  induction schedule generalizing c with
  | nil => exact hc p hp
  | cons j schedule ih =>
      refine ih (fun q hq => ?_) hp
      rcases stepAt_cases h c j with hsame | ⟨op, next, hj⟩
      · rw [hsame] at hq
        exact hc q hq
      · rcases threads_stepAt hj hq with ⟨rfl, rfl⟩ | ⟨-, hq⟩
        · exact (hc _ hj).2 _
        · exact hc q hq

end Pool

/-- One program among others, each of whose steps it can rely on, goes on as it would. -/
theorem Pool.always_run {h : Handler σ Op Ans} {Rely : σ → σ → Prop} {A : σ → Op → Prop}
    {G : Pool σ Op Ans α → Nat → Prop} {i : Nat} {Q : α → σ → Prop}
    (htrans : ∀ s₁ s₂ s₃, Rely s₁ s₂ → Rely s₂ s₃ → Rely s₁ s₃) (hrefl : ∀ s, Rely s s)
    (hA : ∀ op s s', Rely s s' → A s op → A s' op) (hQ : ∀ a s s', Rely s s' → Q a s → Q a s')
    (hothers : ∀ c k, G c k → k ≠ i → Rely c.shared (stepAt h c k).shared)
    {c : Pool σ Op Ans α} {schedule : List Nat} (hg : Pool.Guarded h G c schedule)
    {p : Prog Op Ans α} (hi : c.threads[i]? = some p)
    (hp : Always A (Relying h Rely) p c.shared Q) :
    ∃ p', (Pool.run h c schedule).threads[i]? = some p'
      ∧ Always A (Relying h Rely) p' (Pool.run h c schedule).shared Q := by
  refine Pool.run_inv_of_guarded (I := fun c => ∃ p, c.threads[i]? = some p
      ∧ Always A (Relying h Rely) p c.shared Q) (fun c k hG hI => ?_) hg ⟨p, hi, hp⟩
  obtain ⟨p, hi, hp⟩ := hI
  by_cases hki : k = i
  · subst hki
    cases p with
    | done a =>
        rw [stepAt_done hi]
        exact ⟨_, hi, hp⟩
    | call op next =>
        rw [stepAt_call hi]
        exact ⟨_, List.getElem?_set_self (List.getElem?_eq_some_iff.mp hi).1,
          hp.2 _ _ ⟨_, hrefl _, rfl⟩⟩
  · have hrely := hothers c k hG hki
    exact ⟨p, by rw [threads_stepAt_of_ne (Ne.symm hki), hi],
      hp.rely htrans (fun op => hA op _ _ hrely) (fun a => hQ a _ _ hrely) hrely⟩

/-! ### A pool with its histories -/

/-- Each thread makes only calls of `B`, or makes its calls as `A` says, behind a history of
which `F` holds. -/
def Pool.Behind (A : History Op Ans → Op → Prop) (B : Op → Prop)
    (F : Nat → History Op Ans → Prop) (c : Pool σ Op Ans α) : Prop :=
  ∀ i p, c.threads[i]? = some p →
    Uses B p ∨ ∃ l, Always A Recording p l (fun _ _ => True) ∧ F i l

/-- A step adds to the history of its thread. -/
theorem Pool.Behind.step {h : Handler σ Op Ans} {A : History Op Ans → Op → Prop} {B : Op → Prop}
    {F F' : Nat → History Op Ans → Prop} {c : Pool σ Op Ans α} {i : Nat} (hc : c.Behind A B F)
    (hkeep : ∀ k l, F k l → F' k l)
    (hown : ∀ op next l, c.threads[i]? = some (call op next) → A l op → F i l →
      F' i (l ++ [⟨op, (h c.shared op).1⟩])) : (stepAt h c i).Behind A B F' := by
  have hothers : ∀ {k p}, c.threads[k]? = some p →
      Uses B p ∨ ∃ l, Always A Recording p l (fun _ _ => True) ∧ F' k l := fun hk =>
    (hc _ _ hk).imp_right fun ⟨l, hp, hl⟩ => ⟨l, hp, hkeep _ l hl⟩
  intro k p hk
  rcases stepAt_cases h c i with hsame | ⟨op, next, hi⟩
  · rw [hsame] at hk
    exact hothers hk
  · rcases threads_stepAt hi hk with ⟨rfl, rfl⟩ | ⟨-, hk⟩
    · rcases hc k _ hi with huses | ⟨l, hp, hl⟩
      · exact Or.inl (huses.2 _)
      · exact Or.inr ⟨_, hp.2 _ _ rfl, hown op next l hi hp.1 hl⟩
    · exact hothers hk

/-! ### One program among others -/

section Among

variable {ρ : Type} {h : Handler σ Op Ans} {Ready : Prog Op Ans α → σ → Prop}
  {Rely : Prog Op Ans α → ρ → σ → σ → Prop}

/-- The program does its part among others and returns a result with `Q`. `own` is what it
alone knows about the state. Before each call the others may have moved the state as far as
`Rely` lets them, and what the program is about to do is `Ready`; the call must then be one
that `Allows` grants, and leaves `own'`. -/
def Among (h : Handler σ Op Ans) (Ready : Prog Op Ans α → σ → Prop)
    (Rely : Prog Op Ans α → ρ → σ → σ → Prop)
    (Allows : ρ → σ → Prog Op Ans α → ρ → Prop) (Q : α → Prop) : Prog Op Ans α → ρ → σ → Prop
  | done a, _, _ => Q a
  | call op next, own, s => ∀ s', Rely (call op next) own s s' → Ready (call op next) s' →
      ∃ own', Allows own s' (call op next) own'
        ∧ Among h Ready Rely Allows Q (next (h s' op).1) own' (h s' op).2

/-- Steps of the others do not matter. -/
theorem Among.rely {Allows : ρ → σ → Prog Op Ans α → ρ → Prop} {Q : α → Prop}
    (htrans : ∀ p own s₁ s₂ s₃, Rely p own s₁ s₂ → Rely p own s₂ s₃ → Rely p own s₁ s₃)
    {p : Prog Op Ans α} {own : ρ} {s s' : σ} (hp : Among h Ready Rely Allows Q p own s)
    (hs : Rely p own s s') : Among h Ready Rely Allows Q p own s' := by
  cases p with
  | done a => exact hp
  | call op next => exact fun s'' hs'' => hp s'' (htrans _ _ _ _ _ hs hs'')

/-- A weaker promise follows. -/
theorem Among.mono {Allows : ρ → σ → Prog Op Ans α → ρ → Prop} {Q R : α → Prop}
    (hQ : ∀ a, Q a → R a) {p : Prog Op Ans α} {own : ρ} {s : σ}
    (hp : Among h Ready Rely Allows Q p own s) : Among h Ready Rely Allows R p own s := by
  induction p generalizing own s with
  | done a => exact hQ a hp
  | call op next ih =>
      intro s' hrely hready
      obtain ⟨own', hallows, hnext⟩ := hp s' hrely hready
      exact ⟨own', hallows, ih _ hnext⟩

/-- When every program of a pool does its part, what is known about the pool makes the next
call of each ready, and each step keeps what is known and is one that the others can rely
on, then every program goes on doing its part. -/
theorem Pool.among_inv {Allows : Nat → ρ → σ → Prog Op Ans α → ρ → Prop} {Q : Nat → α → Prop}
    {J : Pool σ Op Ans α → (Nat → ρ) → Prop} {G : Pool σ Op Ans α → Nat → Prop}
    (hrefl : ∀ p own s, Rely p own s s)
    (htrans : ∀ p own s₁ s₂ s₃, Rely p own s₁ s₂ → Rely p own s₂ s₃ → Rely p own s₁ s₃)
    (hready : ∀ (c : Pool σ Op Ans α) own i p, G c i → J c own → c.threads[i]? = some p →
      Ready p c.shared)
    (hstep : ∀ (c : Pool σ Op Ans α) own i op next own', G c i → J c own →
      c.threads[i]? = some (call op next) → Allows i (own i) c.shared (call op next) own' →
      J (stepAt h c i) (Function.update own i own')
        ∧ ∀ k p, k ≠ i → c.threads[k]? = some p → Rely p (own k) c.shared (h c.shared op).2)
    {c : Pool σ Op Ans α} {schedule : List Nat} (hg : Pool.Guarded h G c schedule)
    {own : Nat → ρ} (hJ : J c own)
    (hc : ∀ i p, c.threads[i]? = some p →
      Among h Ready Rely (Allows i) (Q i) p (own i) c.shared) :
    ∃ own', J (Pool.run h c schedule) own' ∧ ∀ i p, (Pool.run h c schedule).threads[i]? = some p →
      Among h Ready Rely (Allows i) (Q i) p (own' i) (Pool.run h c schedule).shared := by
  -- The invariant: some split of the knowledge makes every program do its part.
  refine Pool.run_inv_of_guarded
    (I := fun c => ∃ own, J c own ∧ ∀ i p, c.threads[i]? = some p →
      Among h Ready Rely (Allows i) (Q i) p (own i) c.shared)
    (fun c i hG hI => ?_) hg ⟨own, hJ, hc⟩
  obtain ⟨own, hJ, hc⟩ := hI
  cases hi : c.threads[i]? with
  | none =>
      rw [stepAt_none hi]
      exact ⟨own, hJ, hc⟩
  | some p =>
      cases p with
      | done a =>
          rw [stepAt_done hi]
          exact ⟨own, hJ, hc⟩
      | call op next =>
          obtain ⟨own', hallows, hnext⟩ :=
            hc i _ hi c.shared (hrefl _ _ _) (hready c own i _ hG hJ hi)
          obtain ⟨hJ', hothers⟩ := hstep c own i op next own' hG hJ hi hallows
          refine ⟨Function.update own i own', hJ', fun k p hk => ?_⟩
          rw [stepAt_call hi] at hk ⊢
          by_cases hki : k = i
          · -- The thread that has moved goes on with what its call has left it.
            subst hki
            rw [List.getElem?_set_self (List.getElem?_eq_some_iff.mp hi).1] at hk
            cases hk
            rw [Function.update_self]
            exact hnext
          · -- The others only see the state move, as far as they can bear.
            rw [List.getElem?_set_ne (Ne.symm hki)] at hk
            rw [Function.update_of_ne hki]
            exact (hc k p hk).rely htrans (hothers k p hki hk)

/-- Then every result is as promised. -/
theorem Pool.among_run {Allows : Nat → ρ → σ → Prog Op Ans α → ρ → Prop} {Q : Nat → α → Prop}
    {J : Pool σ Op Ans α → (Nat → ρ) → Prop} {G : Pool σ Op Ans α → Nat → Prop}
    (hrefl : ∀ p own s, Rely p own s s)
    (htrans : ∀ p own s₁ s₂ s₃, Rely p own s₁ s₂ → Rely p own s₂ s₃ → Rely p own s₁ s₃)
    (hready : ∀ (c : Pool σ Op Ans α) own i p, G c i → J c own → c.threads[i]? = some p →
      Ready p c.shared)
    (hstep : ∀ (c : Pool σ Op Ans α) own i op next own', G c i → J c own →
      c.threads[i]? = some (call op next) → Allows i (own i) c.shared (call op next) own' →
      J (stepAt h c i) (Function.update own i own')
        ∧ ∀ k p, k ≠ i → c.threads[k]? = some p → Rely p (own k) c.shared (h c.shared op).2)
    {c : Pool σ Op Ans α} {schedule : List Nat} (hg : Pool.Guarded h G c schedule)
    {own : Nat → ρ} (hJ : J c own)
    (hc : ∀ i p, c.threads[i]? = some p → Among h Ready Rely (Allows i) (Q i) p (own i) c.shared)
    {i : Nat} {a : α} (ha : (Pool.run h c schedule).threads[i]? = some (done a)) : Q i a := by
  obtain ⟨own', -, hc'⟩ := Pool.among_inv hrefl htrans hready hstep hg hJ hc
  exact hc' i (done a) ha

end Among

end Prog
