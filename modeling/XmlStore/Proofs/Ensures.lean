/-
What computations on a state ensure. A computation of type `Tracked` either
returns or fails, and leaves a state in both cases, so that a statement about
it has a condition for either outcome. The rules follow the ways in which
computations are put together.
-/
import XmlStore.Store.Message

namespace XmlStore

/-- What a computation returns that gives off messages, if it returns anything. -/
def Reported.Returns {α : Type} (computation : Reported α) (Q : α → Prop) : Prop :=
  ∀ messages a, (computation.run.run messages).1 = .ok a → Q a

namespace Reported.Returns

variable {α β : Type} {Q : α → Prop} {T : β → Prop}

theorem pure {a : α} (h : Q a) : Returns (Pure.pure a) Q := by
  rintro _ _ ⟨⟩
  exact h

theorem throw {e : Error} : Returns (MonadExcept.throw e) Q := by
  rintro _ _ ⟨⟩

theorem any {c : Reported α} : Returns c fun _ => True := fun _ _ _ => trivial

theorem imp {c : Reported α} {Q' : α → Prop} (h : Returns c Q) (hQ : ∀ a, Q a → Q' a) :
    Returns c Q' := fun messages a returns => hQ a (h messages a returns)

theorem bind {c : Reported α} {f : α → Reported β} (hc : Returns c Q)
    (hf : ∀ a, Q a → Returns (f a) T) : Returns (c >>= f) T := by
  intro messages b returns
  have first := hc messages
  rw [ExceptT.run_bind, StateT.run_bind] at returns
  match e : c.run.run messages with
  | (.ok a, messages') =>
    rw [e] at returns first
    exact hf a (first a rfl) messages' b returns
  | (.error _, messages') =>
    rw [e] at returns
    cases returns

end Reported.Returns

namespace Tracked

variable {σ α β : Type} {P P' : σ → Prop} {Q Q' : α → σ → Prop} {R : σ → Prop} {T : β → σ → Prop}

/-- From a state with `P`, the computation leads to a result and a state with `Q`, or fails in a
state with `R`. -/
def Ensures (P : σ → Prop) (computation : Tracked σ α) (Q : α → σ → Prop) (R : σ → Prop) : Prop :=
  ∀ s messages, P s →
    match (computation.run.run s).run messages with
    | ((.ok a, s), _) => Q a s
    | ((.error _, s), _) => R s

namespace Ensures

theorem pure {a : α} (h : ∀ s, P s → Q a s) : Ensures P (Pure.pure a) Q R := fun s _ hs => h s hs

theorem throw {e : Error} (h : ∀ s, P s → R s) : Ensures P (MonadExcept.throw e : Tracked σ α) Q R :=
  fun s _ hs => h s hs

theorem bind {x : Tracked σ α} {f : α → Tracked σ β} (hx : Ensures P x Q R)
    (hf : ∀ a, Ensures (Q a) (f a) T R) : Ensures P (x >>= f) T R := by
  intro s messages hs
  have first := hx s messages hs
  rw [ExceptT.run_bind, StateT.run_bind, StateT.run_bind]
  match e : (x.run.run s).run messages with
  | ((.ok a, s'), messages') =>
    rw [e] at first
    exact hf a s' messages' first
  | ((.error _, s'), messages') =>
    rw [e] at first
    exact first

/-- A refusal ends a computation, whatever would come after it. -/
theorem refuse {e : Error} {f : α → Tracked σ β} (h : ∀ s, P s → R s) :
    Ensures P ((MonadExcept.throw e : Tracked σ α) >>= f) T R :=
  bind (Q := fun _ _ => False) (throw h) fun _ _ _ => False.elim

theorem imp {x : Tracked σ α} (h : Ensures P x Q R) (hP : ∀ s, P' s → P s)
    (hQ : ∀ a s, Q a s → Q' a s) : Ensures P' x Q' R := by
  intro s messages hs
  have first := h s messages (hP s hs)
  match e : (x.run.run s).run messages with
  | ((.ok a, s'), messages') =>
    rw [e] at first
    exact hQ a s' first
  | ((.error _, s'), messages') =>
    rw [e] at first
    exact first

theorem fails {x : Tracked σ α} {R' : σ → Prop} (h : Ensures P x Q R) (hR : ∀ s, R s → R' s) :
    Ensures P x Q R' := by
  intro s messages hs
  have first := h s messages hs
  match e : (x.run.run s).run messages with
  | ((.ok a, s'), messages') =>
    rw [e] at first
    exact first
  | ((.error _, s'), messages') =>
    rw [e] at first
    exact hR s' first

/-- What holds whatever the state is may be assumed of the whole computation. -/
theorem assume {p : Prop} {x : Tracked σ α} (h : p → Ensures P x Q R) :
    Ensures (fun s => P s ∧ p) x Q R :=
  fun s messages hs => h hs.2 s messages hs.1

theorem get {Q : σ → σ → Prop} (h : ∀ s, P s → Q s s) :
    Ensures P (MonadState.get : Tracked σ σ) Q R :=
  fun s _ hs => h s hs

theorem modify {f : σ → σ} {Q : PUnit → σ → Prop} (h : ∀ s, P s → Q ⟨⟩ (f s)) :
    Ensures P (modify f : Tracked σ PUnit) Q R :=
  fun s _ hs => h s hs

theorem modifyGet {f : σ → α × σ} (h : ∀ s, P s → Q (f s).1 (f s).2) :
    Ensures P (modifyGet f : Tracked σ α) Q R := fun s _ hs => h s hs

/-- What does not touch the state keeps what holds of it. -/
theorem report {c : Reported α} (h : ∀ s, P s → R s)
    (h' : ∀ s, P s → c.Returns (Q · s)) : Ensures P (liftM c : Tracked σ α) Q R := by
  intro s messages hs
  have run : ((liftM c : Tracked σ α).run.run s).run messages =
    (((c.run.run messages).1, s), (c.run.run messages).2) := rfl
  rw [run]
  cases e : (c.run.run messages).1 with
  | ok a => exact h' s hs messages a e
  | error _ => exact h s hs

theorem lift {c : Except Error α} (h : ∀ s, P s → R s) (h' : ∀ a s, P s → c = .ok a → Q a s) :
    Ensures P (liftM c : Tracked σ α) Q R := by
  intro s messages hs
  cases c with
  | ok a => exact h' a s hs rfl
  | error e => exact h s hs

theorem discard {x : Tracked σ α} {P' : σ → Prop} (h : Ensures P x (fun _ => P') R) :
    Ensures P (Functor.discard x) (fun _ => P') R := by
  have as_bind : Functor.discard x = x >>= fun _ => Pure.pure ⟨⟩ := (bind_pure_comp _ x).symm
  rw [as_bind]
  exact bind h fun _ => pure fun _ hs => hs

/-- A loop keeps what each of its rounds keeps. -/
theorem forM {l : List α} {f : α → Tracked σ PUnit} (h : ∀ a ∈ l, Ensures P (f a) (fun _ => P) R) :
    Ensures P (l.forM f) (fun _ => P) R := by
  induction l with
  | nil => exact pure fun _ hs => hs
  | cons a l ih =>
    exact bind (h a List.mem_cons_self) fun _ => ih fun b hb => h b (List.mem_cons_of_mem a hb)

theorem mapM {l : List α} {f : α → Tracked σ β} (h : ∀ a ∈ l, Ensures P (f a) (fun _ => P) R) :
    Ensures P (l.mapM f) (fun _ => P) R := by
  induction l with
  | nil =>
    rw [List.mapM_nil]
    exact pure fun _ hs => hs
  | cons a l ih =>
    rw [List.mapM_cons]
    refine bind (h a List.mem_cons_self) fun _ => ?_
    exact bind (ih fun b hb => h b (List.mem_cons_of_mem a hb)) fun _ => pure fun _ hs => hs

/-- Steps that are known to succeed come to the list of their results. -/
theorem mapM_lift {l : List α} {c : α → Except Error β} {f : α → β} (succeeds : ∀ a ∈ l, c a = .ok (f a)) :
    Ensures P (l.mapM fun a => (liftM (c a) : Tracked σ β)) (fun results s => P s ∧ results = l.map f) R := by
  induction l with
  | nil =>
    rw [List.mapM_nil]
    exact pure fun _ hs => ⟨hs, rfl⟩
  | cons a l ih =>
    rw [List.forall_mem_cons] at succeeds
    have lifted : (liftM (Except.ok (f a) : Except Error β) : Tracked σ β) = Pure.pure (f a) := rfl
    rw [List.mapM_cons, succeeds.1, lifted, pure_bind]
    refine bind (ih succeeds.2) fun results => pure fun s hs => ⟨hs.1, ?_⟩
    rw [hs.2, List.map_cons]

end Ensures

theorem run_runOn {τ : Type} (state : τ) (x : Tracked τ α) (messages : List Message) :
    (runOn state x).run.run messages =
      match (x.run.run state).run messages with
      | ((.ok a, s), messages) => (.ok (a, s), messages)
      | ((.error e, _), messages) => (.error e, messages) := by
  have run : (runOn state x).run.run messages =
    match (x.run.run state).run messages with
    | ((r, s), messages) => (do return (← liftM r, s) : Reported (α × τ)).run.run messages := rfl
  rw [run]
  rcases (x.run.run state).run messages with ⟨⟨_ | a, s⟩, messages⟩ <;> rfl

/-- What a computation on a state of its own returns. -/
theorem returns_runOn {τ : Type} {state : τ} {x : Tracked τ α} {Q : α → τ → Prop} {R : τ → Prop}
    (h : Ensures (· = state) x Q R) : (runOn state x).Returns fun a => Q a.1 a.2 := by
  rintro messages ⟨a, s⟩ returns
  have result := h state messages rfl
  rw [run_runOn] at returns
  match e : (x.run.run state).run messages with
  | ((.ok a', s'), messages') =>
    rw [e] at returns result
    cases returns
    exact result
  | ((.error _, s'), messages') =>
    rw [e] at returns
    cases returns

end Tracked

end XmlStore
