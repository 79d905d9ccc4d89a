/-
Why calls are refused, and what is said meanwhile. What is asked of an open
document, done to it, set for it or written to files knows of no handle, so
that none of it is refused for one: each is a computation that could as well be
run with a narrower type of errors. Nor does it report its own refusal; all it
gives off are a few remarks.
-/
import XmlStore.Proofs.Ensures
import XmlStore.Store.Basic
import Mathlib.Tactic.Choose

namespace XmlStore

/-! ## Messages -/

/-- Monads whose computations give off messages or none. -/
class GivesOff (m : Type → Type) [Monad m] where
  /-- All messages that a computation gives off are of some kind. -/
  only : (Message → Prop) → {α : Type} → m α → Prop
  only_pure : ∀ {P : Message → Prop} {α : Type} {a : α}, only P (pure a)
  only_bind : ∀ {P : Message → Prop} {α β : Type} {x : m α} {f : α → m β}, only P x →
    (∀ a, only P (f a)) → only P (x >>= f)

instance : GivesOff (StateM Files) where
  only _ _ _ := True
  only_pure := trivial
  only_bind _ _ := trivial

instance : GivesOff (StateM (List Message)) where
  only P _ x := ∀ messages, ∃ more, (x.run messages).2 = messages ++ more ∧ ∀ m ∈ more, P m
  only_pure messages := ⟨[], (List.append_nil messages).symm, fun _ none => absurd none List.not_mem_nil⟩
  only_bind {P _ _ x f} hx hf messages := by
    obtain ⟨first, said, holds⟩ := hx messages
    obtain ⟨second, said', holds'⟩ := hf (x.run messages).1 (messages ++ first)
    refine ⟨first ++ second, ?_, List.forall_mem_append.mpr ⟨holds, holds'⟩⟩
    rw [← List.append_assoc, ← said', ← said]
    rfl

instance {σ : Type} : GivesOff (StateT σ (StateM (List Message))) where
  only P _ x := ∀ s, GivesOff.only P (x.run s)
  only_pure _ := GivesOff.only_pure
  only_bind hx hf s := by
    rw [StateT.run_bind]
    exact GivesOff.only_bind (hx s) fun (a, s) => hf a s

/-- How messages begin that edits and lookups give off. -/
def remarkStems : List String := ["empty uID found", "there are duplicated uIDs", "default namespace"]

/-- A message that tells of something on the way. -/
def Message.Remark (m : Message) : Prop := ∃ stem ∈ remarkStems, stem.toList <+: m.text.toList

theorem prefix_append_toList {stem begin : String} (rest : String) (h : stem.toList <+: begin.toList) :
    stem.toList <+: (begin ++ rest).toList := by
  rw [String.toList_append]
  exact h.trans (List.prefix_append _ _)

/-! ## Errors -/

/-- A refusal for what is asked, and not for the handle. -/
def Error.Inner (e : Error) : Prop := (e.code == .invalidHandle) = false

/-- Every error is an inner one. -/
def InnerErrors {α : Type} (c : Except Error α) : Prop := ∀ e, c = .error e → e.Inner

namespace InnerErrors

variable {α β : Type}

theorem ok {a : α} : InnerErrors (Except.ok a) := by
  rintro _ ⟨⟩

theorem error {e : Error} (h : e.Inner) : InnerErrors (Except.error e : Except Error α) := by
  rintro _ ⟨⟩
  exact h

theorem bind {c : Except Error α} {f : α → Except Error β} (hc : InnerErrors c)
    (hf : ∀ a, InnerErrors (f a)) : InnerErrors (c >>= f) := by
  cases c with
  | ok a => exact hf a
  | error e => exact error (hc e rfl)

theorem ite {p : Prop} [Decidable p] {c c' : Except Error α} (h : InnerErrors c) (h' : InnerErrors c') :
    InnerErrors (if p then c else c') := by
  split
  · exact h
  · exact h'

theorem mapM {l : List α} {f : α → Except Error β} (h : ∀ a, InnerErrors (f a)) : InnerErrors (l.mapM f) := by
  induction l with
  | nil =>
    rw [List.mapM_nil]
    exact ok
  | cons a l ih =>
    rw [List.mapM_cons]
    exact bind (h a) fun _ => bind ih fun _ => ok

end InnerErrors

/-- A computation that gives off messages of one kind only, and fails with errors of one kind only, so
that it can be run with no others. -/
structure Confined {m : Type → Type} [Monad m] [GivesOff m] {α : Type} (P : Message → Prop) (Q : Error → Prop)
    (x : ExceptT Error m α) : Prop where
  errors : ∃ y : m (Except {e : Error // Q e} α), x.run = Except.mapError Subtype.val <$> y
  messages : GivesOff.only P x.run

namespace Confined

section

variable {m : Type → Type} [Monad m] [LawfulMonad m] [GivesOff m] {α β : Type} {P : Message → Prop} {Q : Error → Prop}

theorem pure {a : α} : Confined P Q (Pure.pure a : ExceptT Error m α) where
  errors := ⟨Pure.pure (.ok a), by rw [ExceptT.run_pure, map_pure]; rfl⟩
  messages := GivesOff.only_pure

theorem throw {e : Error} (h : Q e) : Confined P Q (MonadExcept.throw e : ExceptT Error m α) where
  errors := ⟨Pure.pure (.error ⟨e, h⟩), by rw [map_pure]; rfl⟩
  messages := GivesOff.only_pure

/-- A refusal ends the computation, whatever would come after it. -/
theorem refuse {e : Error} {f : β → ExceptT Error m α} (h : Q e) :
    Confined P Q (MonadExcept.throw e >>= f) := by
  have throws : (MonadExcept.throw e >>= f : ExceptT Error m α) = MonadExcept.throw e := by
    refine ExceptT.ext ?_
    rw [ExceptT.run_bind, ExceptT.run_throw, pure_bind]
    rfl
  rw [throws]
  exact throw h

/-- What cannot fail at all. -/
theorem ofAction {x : m α} (h : GivesOff.only P x) : Confined P Q (ExceptT.lift x : ExceptT Error m α) where
  errors := ⟨Except.ok <$> x, by rw [ExceptT.run_lift, ← comp_map]; rfl⟩
  messages := by
    rw [ExceptT.run_lift, map_eq_pure_bind]
    exact GivesOff.only_bind h fun _ => GivesOff.only_pure

theorem bind {x : ExceptT Error m α} {f : α → ExceptT Error m β} (hx : Confined P Q x)
    (hf : ∀ a, Confined P Q (f a)) : Confined P Q (x >>= f) := by
  obtain ⟨⟨y, hy⟩, said⟩ := hx
  choose g hg using fun a => (hf a).errors
  refine ⟨⟨y >>= fun | .ok a => g a | .error e => Pure.pure (.error e), ?_⟩, ?_⟩
  · rw [ExceptT.run_bind, hy, bind_map_left, map_bind]
    refine congrArg _ (funext fun r => ?_)
    cases r with
    | ok a => exact hg a
    | error e => exact (map_pure (Except.mapError Subtype.val) (Except.error e)).symm
  · rw [ExceptT.run_bind]
    refine GivesOff.only_bind said fun r => ?_
    cases r with
    | ok a => exact (hf a).messages
    | error e => exact GivesOff.only_pure

omit [LawfulMonad m] in
theorem ite {p : Prop} [Decidable p] {x y : ExceptT Error m α} (hx : Confined P Q x) (hy : Confined P Q y) :
    Confined P Q (if p then x else y) := by
  split
  · exact hx
  · exact hy

theorem discard {x : ExceptT Error m α} (h : Confined P Q x) : Confined P Q (Functor.discard x) := by
  have as_bind : Functor.discard x = x >>= fun _ => Pure.pure ⟨⟩ := (bind_pure_comp _ x).symm
  rw [as_bind]
  exact bind h fun _ => pure

theorem forM {l : List α} {f : α → ExceptT Error m PUnit} (h : ∀ a, Confined P Q (f a)) :
    Confined P Q (l.forM f) := by
  induction l with
  | nil => exact pure
  | cons a l ih => exact bind (h a) fun _ => ih

theorem mapM {l : List α} {f : α → ExceptT Error m β} (h : ∀ a, Confined P Q (f a)) :
    Confined P Q (l.mapM f) := by
  induction l with
  | nil =>
    rw [List.mapM_nil]
    exact pure
  | cons a l ih =>
    rw [List.mapM_cons]
    exact bind (h a) fun _ => bind ih fun _ => pure

theorem foldlM {l : List α} {f : β → α → ExceptT Error m β} {b : β} (h : ∀ b a, Confined P Q (f b a)) :
    Confined P Q (l.foldlM f b) := by
  induction l generalizing b with
  | nil => exact pure
  | cons a l ih => exact bind (h b a) fun _ => ih

theorem lift {c : Except Error α} (h : ∀ e, c = .error e → Q e) : Confined P Q (liftM c : ExceptT Error m α) := by
  cases c with
  | ok a => exact pure
  | error e => exact throw (h e rfl)

end

variable {σ : Type} {P : Message → Prop} {Q : Error → Prop}

theorem get : Confined P Q (MonadState.get : Tracked σ σ) :=
  ofAction (x := MonadState.get) fun _ => GivesOff.only_pure

theorem set {s : σ} : Confined P Q (MonadStateOf.set s : Tracked σ PUnit) :=
  ofAction (x := MonadStateOf.set s) fun _ => GivesOff.only_pure

theorem modifyGet {α : Type} {f : σ → α × σ} : Confined P Q (MonadState.modifyGet f : Tracked σ α) :=
  ofAction (x := MonadState.modifyGet f) fun _ => GivesOff.only_pure

theorem say {message : Message} (h : P message) : Confined P Q (Reported.report message) :=
  ofAction (x := modifyThe (List Message) (· ++ [message]))
    fun _ => ⟨[message], rfl, List.forall_mem_singleton.mpr h⟩

/-- What gives off messages fails as it does on a state. -/
theorem report {α : Type} {c : Reported α} (h : Confined P Q c) : Confined P Q (liftM c : Tracked σ α) := by
  obtain ⟨⟨y, hy⟩, said⟩ := h
  have run : (liftM c : Tracked σ α).run = StateT.lift c.run := rfl
  refine ⟨⟨StateT.lift y, ?_⟩, fun s => ?_⟩
  · rw [run, hy]
    refine StateT.ext fun s => ?_
    simp
  · rw [run, StateT.run_lift]
    exact GivesOff.only_bind said fun _ => GivesOff.only_pure

/-- A computation on a state of its own. -/
theorem runOn {α : Type} {state : σ} {x : Tracked σ α} (h : Confined P Q x) :
    Confined P Q (Tracked.runOn state x) := by
  obtain ⟨⟨y, hy⟩, said⟩ := h
  have run (messages : List Message) : (Tracked.runOn state x).run.run messages = _ :=
    Tracked.run_runOn state x messages
  refine ⟨⟨(fun (r, s) => r.map (·, s)) <$> y.run state, ?_⟩, fun messages => ?_⟩
  · refine StateT.ext fun messages => ?_
    rw [run, hy]
    simp only [StateT.run_map]
    change _ = (fun p => _) ((y.run state).run messages)
    rcases (y.run state).run messages with ⟨⟨_ | a, s⟩, messages'⟩ <;> rfl
  · obtain ⟨more, appended, holds⟩ := said state messages
    refine ⟨more, ?_, holds⟩
    rw [run, ← appended]
    rcases (x.run.run state).run messages with ⟨⟨_ | a, s⟩, messages'⟩ <;> rfl

theorem of_mapError {α : Type} {r : Except {e : Error // Q e} α} {e : Error}
    (failed : Except.mapError Subtype.val r = .error e) : Q e := by
  cases r with
  | ok a => cases failed
  | error cause =>
    cases failed
    exact cause.2

/-- The outcome of a computation that gives off messages, or that writes files. -/
theorem of_run {σ α : Type} [GivesOff (StateM σ)] {x : ExceptT Error (StateM σ) α} (h : Confined P Q x) {s : σ} {e : Error}
    (failed : (x.run.run s).1 = .error e) : Q e := by
  obtain ⟨y, hy⟩ := h.errors
  rw [hy, StateT.run_map] at failed
  exact of_mapError failed

/-- A refusal is the last message; those before it are of the kind that the computation gives off. -/
theorem of_conclude {x : Tracked σ Answer} (h : Confined P Q x) {s : σ} {e : Error}
    (refused : (x.conclude s).1.1 = .refused e) :
    Q e ∧ ∃ before, (x.conclude s).1.2 = before ++ [e.toMessage] ∧ ∀ m ∈ before, P m := by
  obtain ⟨y, hy⟩ := h.errors
  obtain ⟨more, appended, holds⟩ := h.messages s []
  have inner : ((x.run.run s).run []).1.1 = .error e → Q e := fun failed => by
    rw [hy, StateT.run_map, StateT.run_map] at failed
    exact of_mapError failed
  rw [Tracked.conclude] at refused ⊢
  match outcome : (x.run.run s).run [] with
  | ((.ok a, s'), messages) =>
    rw [outcome] at refused
    cases refused
  | ((.error cause, s'), messages) =>
    rw [outcome] at refused inner appended
    cases refused
    exact ⟨inner rfl, more, congrArg (· ++ [e.toMessage]) appended, holds⟩

theorem of_finish {α : Type} {x : Reported α} (h : Confined P Q x) {e : Error}
    (failed : x.finish.1 = .error e) :
    Q e ∧ ∃ before, x.finish.2 = before ++ [e.toMessage] ∧ ∀ m ∈ before, P m := by
  obtain ⟨more, appended, holds⟩ := h.messages []
  have inner : (x.run.run []).1 = .error e → Q e := h.of_run
  rw [Reported.finish] at failed ⊢
  match result : x.run.run [] with
  | (.ok a, messages) =>
    rw [result] at failed
    cases failed
  | (.error cause, messages) =>
    rw [result] at failed inner appended
    cases failed
    exact ⟨inner rfl, more, congrArg (· ++ [e.toMessage]) appended, holds⟩

end Confined

/-- The computation fails with inner errors only, and gives off remarks only. -/
def FailsInside {m : Type → Type} [Monad m] [GivesOff m] {α : Type} (x : ExceptT Error m α) : Prop :=
  Confined Message.Remark Error.Inner x

/-! ## Values -/

variable {path name text : String}

theorem OpenDocument.innerErrors_select {d : OpenDocument} : InnerErrors (d.select path) := by
  rw [select]
  split
  · exact .ok
  · exact .error rfl

theorem innerErrors_writeNumber {value : FormatValue} : InnerErrors (writeNumber text value) := by
  rw [writeNumber]
  split
  · exact .ok
  · exact .error rfl

theorem innerErrors_writeFloat {format : Option String} {x : Float} : InnerErrors (writeFloat format x) :=
  innerErrors_writeNumber

theorem innerErrors_readFloat : InnerErrors (readFloat path text) := by
  unfold readFloat
  split
  · exact .ok
  · exact .error rfl

theorem innerErrors_readInteger : InnerErrors (readInteger path text) := by
  unfold readInteger
  split
  · exact .ok
  · exact .error rfl

theorem innerErrors_readElementBoolean : InnerErrors (readElementBoolean path text) :=
  .ite .ok (.ite .ok (.error rfl))

theorem innerErrors_readAttributeBoolean : InnerErrors (readAttributeBoolean path name text) :=
  .ite .ok (.ite .ok (.error rfl))

theorem innerErrors_checkQualifier : InnerErrors (checkQualifier name) := .ite .ok (.error rfl)

theorem innerErrors_checkUri : InnerErrors (checkUri text) := .ite (.error rfl) .ok

theorem innerErrors_readVector : InnerErrors (readVector path text) := .mapM fun _ => innerErrors_readFloat

theorem innerErrors_writeVector {format : Option String} {numbers : List Float} :
    InnerErrors (writeVector format numbers) :=
  .bind (.mapM fun _ => innerErrors_writeFloat) fun _ => .ok

/-! ## Questions -/

/-- The lookup fails with inner errors only. -/
def Lookup.FailsInside {α : Type} (x : Lookup α) : Prop := ∀ d, XmlStore.FailsInside (x.run d)

namespace Lookup

namespace FailsInside

variable {α β : Type}

theorem pure {a : α} : FailsInside (Pure.pure a : Lookup α) := fun _ => .pure

theorem throw {e : Error} (h : e.Inner) : FailsInside (MonadExcept.throw e : Lookup α) :=
  fun _ => .throw h

theorem refuse {e : Error} {f : β → Lookup α} (h : e.Inner) :
    FailsInside (MonadExcept.throw e >>= f) := fun d => .refuse (f := fun a => (f a).run d) h

theorem read : FailsInside (MonadReader.read : Lookup OpenDocument) := fun _ => .pure

theorem lift {c : Except Error α} (h : InnerErrors c) : FailsInside (liftM c : Lookup α) := fun _ => .lift h

theorem report {c : Reported α} (h : XmlStore.FailsInside c) : FailsInside (liftM c : Lookup α) :=
  fun _ => .report h

theorem bind {x : Lookup α} {f : α → Lookup β} (hx : FailsInside x) (hf : ∀ a, FailsInside (f a)) :
    FailsInside (x >>= f) := fun d => .bind (hx d) fun a => hf a d

theorem ite {p : Prop} [Decidable p] {x y : Lookup α} (hx : FailsInside x) (hy : FailsInside y) :
    FailsInside (if p then x else y) := by
  split
  · exact hx
  · exact hy

theorem discard {x : Lookup α} (h : FailsInside x) : FailsInside (Functor.discard x) :=
  fun d => .discard (h d)

theorem forM {l : List α} {f : α → Lookup PUnit} (h : ∀ a, FailsInside (f a)) : FailsInside (l.forM f) := by
  induction l with
  | nil => exact pure
  | cons a l ih => exact bind (h a) fun _ => ih

theorem mapM {l : List α} {f : α → Lookup β} (h : ∀ a, FailsInside (f a)) : FailsInside (l.mapM f) := by
  induction l with
  | nil =>
    rw [List.mapM_nil]
    exact pure
  | cons a l ih =>
    rw [List.mapM_cons]
    exact bind (h a) fun _ => bind ih fun _ => pure

/-- After a failure that is dealt with, what is done then can fail. -/
theorem handle {x : Lookup α} {f : Error → Lookup α} (hx : FailsInside x) (hf : ∀ e, FailsInside (f e)) :
    FailsInside (tryCatch x f) := by
  intro d
  choose g hg using fun e => (hf e d).errors
  have run : (tryCatch x f).run d = tryCatch (x.run d) fun e => (f e).run d := rfl
  refine ⟨⟨(x.run d).run >>= fun | .ok a => Pure.pure (.ok a) | .error e => g e, ?_⟩, ?_⟩
  · rw [run, ExceptT.run_tryCatch, map_bind]
    refine congrArg _ (funext fun r => ?_)
    cases r with
    | ok a => exact (map_pure (Except.mapError Subtype.val) (Except.ok a)).symm
    | error e => exact hg e
  · rw [run, ExceptT.run_tryCatch]
    refine GivesOff.only_bind (hx d).messages fun r => ?_
    cases r with
    | ok a => exact GivesOff.only_pure
    | error e => exact (hf e d).messages

end FailsInside

variable {α : Type} {names : MatrixNames} {index : Int}

theorem failsInside_select : FailsInside (select path) := by
  rw [select]
  have anew (d : OpenDocument) : FailsInside (do
      let hits ← d.select path
      if d.preferences.caching then set (some (path, hits))
      return hits) := by
    exact .bind (.lift d.innerErrors_select) fun hits => .ite (.bind (fun _ => .set) fun _ => .pure) .pure
  refine .bind .read fun d => .ite (.bind (fun _ => .get) fun known => ?_) (anew d)
  split
  · exact .ite .pure (anew d)
  · exact anew d

theorem failsInside_selectSome : FailsInside (selectSome path) := by
  rw [selectSome]
  exact .bind failsInside_select fun hits => .ite (.refuse rfl) .pure

theorem failsInside_selectOne : FailsInside (selectOne path) := by
  rw [selectOne]
  refine .bind failsInside_selectSome fun hits => ?_
  split
  · exact .pure
  · exact .throw rfl

theorem failsInside_node : FailsInside (node path) := by
  rw [node]
  refine .bind .read fun d => .bind failsInside_selectOne fun hit => ?_
  cases hit with
  | node id =>
    dsimp only
    split
    · exact .pure
    · exact .pure
    · exact .throw rfl
  | «attribute» owner index => exact .throw rfl

theorem failsInside_atIndex {members : List α} : FailsInside (atIndex path members index) := by
  unfold atIndex
  split
  · exact .pure
  · exact .throw rfl

theorem failsInside_hit : FailsInside (hit path index) :=
  .bind failsInside_selectSome fun _ => failsInside_atIndex

theorem failsInside_checkElement : FailsInside (checkElement path) := .discard failsInside_node

theorem failsInside_checkAttribute : FailsInside (checkAttribute path name) :=
  .bind failsInside_node fun _ => .bind .read fun _ => .ite (.throw rfl) .pure

theorem failsInside_namedChildCount : FailsInside (namedChildCount path name) :=
  .bind failsInside_node fun _ => .bind .read fun _ => .pure

theorem failsInside_childCount : FailsInside (childCount path) :=
  .bind failsInside_node fun _ => .bind .read fun _ => .pure

theorem failsInside_childName : FailsInside (childName path index) := by
  rw [childName]
  refine .ite (.refuse rfl) (.bind failsInside_node fun id => .bind .read fun d => ?_)
  exact .bind failsInside_atIndex fun _ => .pure

theorem failsInside_nodeType : FailsInside (nodeType path) := by
  rw [nodeType]
  refine .bind failsInside_selectOne fun hit => ?_
  cases hit with
  | node id => exact .bind .read fun _ => .pure
  | «attribute» owner index => exact .pure

theorem failsInside_count : FailsInside (count path) := .bind failsInside_select fun _ => .pure

theorem failsInside_hitText : FailsInside (hitText path index) :=
  .bind .read fun _ => .bind failsInside_hit fun _ => .pure

theorem failsInside_hitName : FailsInside (hitName path index) := by
  rw [hitName]
  refine .bind .read fun d => .bind failsInside_hit fun hit => ?_
  cases hit with
  | node id =>
    dsimp only
    split
    · exact .pure
    · exact .throw rfl
  | «attribute» owner index => exact .throw rfl

theorem failsInside_hitLocation : FailsInside (hitLocation path index) :=
  .bind .read fun _ => .bind failsInside_hit fun _ => .pure

theorem failsInside_elementText : FailsInside (elementText path) :=
  .bind failsInside_node fun _ => .bind .read fun _ => .pure

theorem failsInside_attributeText : FailsInside (attributeText path name) := by
  rw [attributeText]
  refine .bind failsInside_node fun id => .bind .read fun d => ?_
  split
  · exact .pure
  · exact .throw rfl

theorem failsInside_attributeCount : FailsInside (attributeCount path) :=
  .bind failsInside_node fun _ => .bind .read fun _ => .pure

theorem failsInside_attributeName : FailsInside (attributeName path index) :=
  .bind failsInside_node fun _ => .bind .read fun _ => .bind failsInside_atIndex fun _ => .pure

theorem failsInside_elementMarkup : FailsInside (elementMarkup path) :=
  .bind failsInside_node fun _ => .bind .read fun _ => .pure

theorem failsInside_checkDistinct {warned : Bool} {seen uids : List String} :
    XmlStore.FailsInside (checkDistinct warned seen uids) := by
  induction uids generalizing warned seen with
  | nil => exact .pure
  | cons uid uids ih =>
    rw [checkDistinct]
    have remark : Message.Remark ⟨.warning, "empty uID found, this might lead to unexpected errors"⟩ :=
      ⟨_, List.mem_cons_self, by decide +kernel⟩
    exact .ite (.ite (.bind (.say remark) fun _ => ih) ih) (.ite (.throw rfl) ih)

theorem failsInside_checkUids : FailsInside checkUids :=
  .bind .read fun _ => .report failsInside_checkDistinct

theorem failsInside_checkLinks : FailsInside checkLinks := by
  rw [checkLinks]
  refine .bind .read fun d => ?_
  dsimp only
  split
  · exact .throw rfl
  · exact .pure

theorem failsInside_withUid : FailsInside (withUid name) := by
  rw [withUid]
  refine .bind .read fun d => ?_
  split
  · exact .pure
  · exact .throw rfl

theorem failsInside_uidLocation : FailsInside (uidLocation name) := by
  have remark (e : Error) :
      Message.Remark ⟨.warning, s!"there are duplicated uIDs in the document: {e.message}"⟩ :=
    ⟨_, List.mem_cons_of_mem _ List.mem_cons_self, prefix_append_toList _ (by decide +kernel)⟩
  refine .bind .read fun _ => .bind (.handle failsInside_checkUids fun e => .report (.say (remark e))) fun _ => ?_
  exact .bind failsInside_withUid fun _ => .pure

theorem failsInside_checkUid : FailsInside (checkUid name) :=
  .bind failsInside_checkUids fun _ => .discard failsInside_withUid

theorem failsInside_vectorText : FailsInside (vectorText path) := by
  rw [vectorText]
  refine .bind failsInside_node fun id => .bind .read fun d => ?_
  dsimp only
  split
  · exact .throw rfl
  · exact .ite (.refuse rfl) .pure

theorem failsInside_vectorSize : FailsInside (vectorSize path) :=
  .bind failsInside_vectorText fun _ => .pure

theorem failsInside_vector {count : Nat} : FailsInside (vector path count) := by
  rw [vector]
  refine .bind failsInside_vectorText fun text => ?_
  refine .bind (.mapM fun _ => .lift innerErrors_readFloat) fun numbers => ?_
  exact .ite (.refuse rfl) .pure

theorem failsInside_coordinate {point : NodeId} : FailsInside (coordinate path point name) := by
  rw [coordinate]
  refine .bind .read fun d => ?_
  dsimp only
  split
  · exact .pure
  · split
    · exact .pure
    · exact .throw rfl

theorem failsInside_firstElement? : FailsInside (firstElement? path) :=
  .bind .read fun _ => .bind failsInside_select fun _ => .pure

theorem failsInside_point : FailsInside (point path) := by
  rw [point]
  refine .bind failsInside_firstElement? fun first => ?_
  split
  · exact .throw rfl
  · refine .bind failsInside_coordinate fun x => .bind failsInside_coordinate fun y => ?_
    exact .bind failsInside_coordinate fun z => .ite (.refuse rfl) .pure

theorem failsInside_rowCells {row : NodeId} : FailsInside (rowCells name row) :=
  .bind .read fun _ => .bind (.forM fun _ => .ite (.throw rfl) .pure) fun _ => .pure

theorem failsInside_matrixRows : FailsInside (matrixRows path names) := by
  rw [matrixRows]
  refine .bind (.discard failsInside_selectSome) fun _ => .bind failsInside_select fun rows => ?_
  exact .ite (.refuse rfl) (.mapM fun _ => failsInside_rowCells)

theorem failsInside_matrixSize : FailsInside (matrixSize path names) := by
  rw [matrixSize]
  refine .bind failsInside_matrixRows fun rows => ?_
  dsimp only
  split
  · exact .refuse rfl
  · exact .pure

theorem failsInside_rowNumbers {cols : Nat} {cells : List NodeId} :
    FailsInside (rowNumbers path cols cells) := by
  rw [rowNumbers]
  refine .ite (.refuse rfl) (.bind .read fun d => .mapM fun cell => ?_)
  dsimp only
  split
  · exact .pure
  · exact .throw rfl

theorem failsInside_matrix {rows cols : Nat} {mode : StorageMode} :
    FailsInside (matrix path names rows cols mode) := by
  rw [matrix]
  refine .bind failsInside_matrixRows fun found => .ite (.refuse rfl) ?_
  exact .bind (.mapM fun _ => failsInside_rowNumbers) fun _ => .pure

theorem failsInside_arrayParts : FailsInside (arrayParts path name) := by
  rw [arrayParts]
  refine .bind .read fun d => .bind failsInside_select fun parents => ?_
  exact .ite (.refuse rfl) .pure

theorem failsInside_arrayPartCount : FailsInside (arrayPartCount path name) :=
  .bind failsInside_arrayParts fun _ => .pure

theorem failsInside_arrayPartNames : FailsInside (arrayPartNames path name) :=
  .bind .read fun _ => .bind failsInside_arrayParts fun _ => .pure

theorem failsInside_dimensionText {id : NodeId} : FailsInside (dimensionText id) :=
  .bind .read fun _ => .ite (.refuse rfl) .pure

theorem failsInside_dimensionSizes : FailsInside (dimensionSizes path) := by
  rw [dimensionSizes]
  refine .bind failsInside_arrayParts fun parts => .bind (.mapM fun id => ?_) fun _ => .pure
  exact .bind failsInside_dimensionText fun _ => .pure

theorem failsInside_dimensionValues {dimension : Nat} : FailsInside (dimensionValues path dimension) := by
  rw [dimensionValues]
  refine .bind failsInside_arrayParts fun parts => ?_
  split
  · exact .throw rfl
  · exact .bind .read fun _ => .bind failsInside_dimensionText fun _ => .lift innerErrors_readVector

theorem failsInside_arrayNode : FailsInside (arrayNode path) := by
  rw [arrayNode]
  refine .bind .read fun d => .bind failsInside_selectSome fun hits => ?_
  split
  · exact .ite .pure (.throw rfl)
  · exact .throw rfl

theorem failsInside_array {size : Nat} : FailsInside (array path name size) := by
  rw [array]
  refine .bind failsInside_arrayNode fun id => .bind .read fun d => ?_
  exact .bind (.lift innerErrors_readVector) fun numbers => .ite (.refuse rfl) .pure

end Lookup

theorem Question.failsInside_lookup (q : Question) : q.lookup.FailsInside := by
  open Lookup in
  cases q with
  | isOpen => exact .pure
  | filePath => exact .bind .read fun _ => .pure
  | wholeText => exact .bind .read fun _ => .pure
  | checkElement => exact .bind failsInside_checkElement fun _ => .pure
  | checkAttribute => exact .bind failsInside_checkAttribute fun _ => .pure
  | namedChildCount => exact .bind failsInside_namedChildCount fun _ => .pure
  | childCount => exact .bind failsInside_childCount fun _ => .pure
  | childName => exact .bind failsInside_childName fun _ => .pure
  | nodeType => exact .bind failsInside_nodeType fun _ => .pure
  | hitCount => exact .bind failsInside_count fun _ => .pure
  | hitText => exact .bind failsInside_hitText fun _ => .pure
  | hitName => exact .bind failsInside_hitName fun _ => .pure
  | hitLocation => exact .bind failsInside_hitLocation fun _ => .pure
  | text => exact .bind failsInside_elementText fun _ => .pure
  | integer => exact .bind failsInside_elementText fun _ => .bind (.lift innerErrors_readInteger) fun _ => .pure
  | float => exact .bind failsInside_elementText fun _ => .bind (.lift innerErrors_readFloat) fun _ => .pure
  | boolean =>
    exact .bind failsInside_elementText fun _ => .bind (.lift innerErrors_readElementBoolean) fun _ => .pure
  | elementMarkup => exact .bind failsInside_elementMarkup fun _ => .pure
  | attributeText => exact .bind failsInside_attributeText fun _ => .pure
  | attributeInteger =>
    exact .bind failsInside_attributeText fun _ => .bind (.lift innerErrors_readInteger) fun _ => .pure
  | attributeFloat =>
    exact .bind failsInside_attributeText fun _ => .bind (.lift innerErrors_readFloat) fun _ => .pure
  | attributeBoolean =>
    exact .bind failsInside_attributeText fun _ => .bind (.lift innerErrors_readAttributeBoolean) fun _ => .pure
  | attributeCount => exact .bind failsInside_attributeCount fun _ => .pure
  | attributeName => exact .bind failsInside_attributeName fun _ => .pure
  | checkUids => exact .bind failsInside_checkUids fun _ => .pure
  | checkLinks => exact .bind failsInside_checkLinks fun _ => .pure
  | uidLocation => exact .bind failsInside_uidLocation fun _ => .pure
  | checkUid => exact .bind failsInside_checkUid fun _ => .pure
  | vectorSize => exact .bind failsInside_vectorSize fun _ => .pure
  | vector => exact .bind failsInside_vector fun _ => .pure
  | point => exact .bind failsInside_point fun _ => .pure
  | matrixSize => exact .bind failsInside_matrixSize fun _ => .pure
  | matrix => exact .bind failsInside_matrix fun _ => .pure
  | arrayPartCount => exact .bind failsInside_arrayPartCount fun _ => .pure
  | arrayPartNames => exact .bind failsInside_arrayPartNames fun _ => .pure
  | dimensionSizes => exact .bind failsInside_dimensionSizes fun _ => .pure
  | dimensionValues => exact .bind failsInside_dimensionValues fun _ => .pure
  | array => exact .bind failsInside_array fun _ => .pure

/-! ## Edits -/

namespace Edit

variable {α : Type} {uri value : String} {id p : NodeId} {place : Nat} {names : MatrixNames}
  {numbers : List Float} {format : Option String}

theorem failsInside_document : FailsInside document := .bind .get fun _ => .pure

theorem failsInside_change {f : Document → Document} : FailsInside (change f) := .modifyGet

theorem failsInside_create {content : Content} : FailsInside (create content) := .modifyGet

theorem failsInside_look {question : Lookup α} (h : question.FailsInside) : FailsInside (look question) :=
  .bind .get fun _ => .bind (.report (.runOn (h _))) fun _ => .pure

theorem failsInside_node : FailsInside (look (Lookup.node path)) := failsInside_look Lookup.failsInside_node

theorem failsInside_requireName : FailsInside (requireName name) := .ite (.throw rfl) .pure

theorem failsInside_appendText : FailsInside (appendText id text) :=
  .ite (.bind failsInside_create fun _ => failsInside_change) .pure

theorem failsInside_appendElement : FailsInside (appendElement p name text) :=
  .bind failsInside_create fun _ => .bind failsInside_change fun _ =>
    .bind failsInside_appendText fun _ => .pure

theorem failsInside_applyNamespace {qualifier : Option String} :
    FailsInside (applyNamespace id qualifier uri) := by
  rw [applyNamespace]
  refine .bind failsInside_document fun d => ?_
  exact .ite (.bind failsInside_change fun _ => failsInside_change) failsInside_change

theorem failsInside_insertElement {uri text : Option String} :
    FailsInside (insertElement path name uri text place) := by
  rw [insertElement]
  refine .bind failsInside_requireName fun _ => .ite (.refuse rfl) ?_
  refine .bind failsInside_node fun parent => .bind failsInside_create fun id => ?_
  refine .bind failsInside_appendText fun _ => .bind failsInside_change fun _ => ?_
  split
  · exact .bind failsInside_applyNamespace fun _ => .pure
  · exact .bind failsInside_change fun _ => .pure

theorem failsInside_replaceText : FailsInside (replaceText id text) :=
  .bind failsInside_create fun _ => failsInside_change

theorem failsInside_updateText : FailsInside (updateText path text) :=
  .bind failsInside_node fun _ => failsInside_replaceText

theorem failsInside_renameChildren {old new : String} : FailsInside (renameChildren path old new) := by
  rw [renameChildren]
  refine .bind failsInside_requireName fun _ => .bind failsInside_node fun id => ?_
  refine .bind failsInside_document fun d => .ite (.refuse rfl) ?_
  exact .forM fun target => failsInside_change

theorem failsInside_remove : FailsInside (remove path) := by
  rw [remove]
  refine .bind (failsInside_look Lookup.failsInside_selectOne) fun hit => ?_
  cases hit with
  | node id => exact .ite (.refuse rfl) failsInside_change
  | «attribute» owner index => exact .throw rfl

theorem failsInside_swap {a b : String} : FailsInside (swap a b) := by
  rw [swap]
  refine .bind failsInside_node fun first => .bind failsInside_node fun second => ?_
  exact .bind failsInside_document fun d => .ite (.ite (.refuse rfl) failsInside_change) .pure

theorem failsInside_importMarkup {markup : String} : FailsInside (importMarkup path markup place) := by
  rw [importMarkup]
  refine .bind .get fun d => ?_
  split
  · exact .throw rfl
  · refine .bind failsInside_node fun parent => ?_
    split
    · exact .throw rfl
    · exact .bind failsInside_document fun _ => failsInside_change

theorem failsInside_setAttribute : FailsInside (setAttribute path name value) := by
  rw [setAttribute]
  refine .ite (.refuse rfl) (.bind failsInside_requireName fun _ => .bind failsInside_node fun id => ?_)
  refine .bind failsInside_document fun d => .ite (.refuse rfl) ?_
  dsimp only
  split
  · exact .ite (.refuse rfl) failsInside_change
  · exact failsInside_change

theorem failsInside_removeAttribute : FailsInside (removeAttribute path name) := by
  rw [removeAttribute]
  refine .bind (failsInside_look Lookup.failsInside_selectOne) fun hit => ?_
  cases hit with
  | node id => exact failsInside_change
  | «attribute» owner index => exact .pure

theorem failsInside_element : FailsInside (element path) :=
  .bind failsInside_node fun _ => .bind failsInside_document fun _ => .ite (.refuse rfl) .pure

theorem failsInside_setNamespace {qualifier : String} : FailsInside (setNamespace path uri qualifier) := by
  rw [setNamespace]
  have named : FailsInside (element path >>= fun id =>
      applyNamespace id (if qualifier.isEmpty then none else some qualifier) uri) :=
    .bind failsInside_element fun _ => failsInside_applyNamespace
  refine .bind (.lift innerErrors_checkUri) fun _ => ?_
  exact .ite (.bind (.lift innerErrors_checkQualifier) fun _ => named) named

theorem failsInside_declareNamespace {qualifier : String} :
    FailsInside (declareNamespace path uri qualifier) :=
  .bind (.lift innerErrors_checkQualifier) fun _ => .bind (.lift innerErrors_checkUri) fun _ =>
    .bind failsInside_element fun _ => .bind failsInside_document fun _ => .ite failsInside_change .pure

theorem failsInside_setUid : FailsInside (setUid path value) :=
  .bind failsInside_document fun _ => .bind (.report Lookup.failsInside_checkDistinct) fun _ =>
    failsInside_setAttribute

theorem failsInside_addLink {target : String} {mode : LinkMode} :
    FailsInside (addLink path name target mode) := by
  rw [addLink]
  refine .bind failsInside_requireName fun _ => ?_
  refine .bind (failsInside_look Lookup.failsInside_withUid) fun found => ?_
  refine .bind failsInside_document fun d => .bind failsInside_node fun id => ?_
  refine .bind failsInside_document fun d' => .ite ?_ .pure
  exact .bind failsInside_appendElement fun link => .bind failsInside_change fun _ => .pure

theorem failsInside_vectorText : FailsInside (vectorText name numbers format) :=
  .ite (.refuse rfl) (.lift innerErrors_writeVector)

theorem failsInside_addVector : FailsInside (addVector path name numbers format) :=
  .bind failsInside_vectorText fun _ => .bind failsInside_insertElement fun _ => failsInside_change

theorem failsInside_updateVector : FailsInside (updateVector path numbers format) :=
  .bind failsInside_vectorText fun _ => .bind failsInside_node fun _ =>
    .bind failsInside_replaceText fun _ => failsInside_change

theorem failsInside_texts : FailsInside (numbers.mapM fun x => (writeFloat format x : Edit String)) :=
  .mapM fun _ => .lift innerErrors_writeFloat

theorem failsInside_addPoint {x y z : Float} : FailsInside (addPoint path x y z format) :=
  .bind failsInside_texts fun _ => .bind failsInside_node fun _ =>
    .forM fun _ => .discard failsInside_appendElement

theorem failsInside_addList {list child : String} {values : List String} :
    FailsInside (addList path list child name numbers format values) := by
  rw [addList]
  refine .bind (.forM fun _ => failsInside_requireName) fun _ => .ite (.refuse rfl) ?_
  refine .bind failsInside_texts fun texts => .bind failsInside_insertElement fun id => ?_
  exact .forM fun _ => .bind failsInside_appendElement fun _ => failsInside_change

theorem failsInside_requireNames : FailsInside (requireNames names) :=
  .forM fun _ => failsInside_requireName

theorem failsInside_requireDimension {rows cols : Int} : FailsInside (requireDimension rows cols) :=
  .ite (.refuse rfl) .pure

theorem failsInside_buildMatrix {rows cols : Nat} {cell : Nat → Nat → String} :
    FailsInside (buildMatrix path names rows cols cell) :=
  .bind failsInside_insertElement fun _ => .forM fun _ => .bind failsInside_appendElement fun _ =>
    .forM fun _ => .discard failsInside_appendElement

theorem failsInside_addEmptyMatrix {rows cols : Int} : FailsInside (addEmptyMatrix path names rows cols) :=
  .bind failsInside_requireDimension fun _ => .bind failsInside_requireNames fun _ =>
    failsInside_buildMatrix

theorem failsInside_addMatrix {rows cols : Int} {mode : StorageMode} :
    FailsInside (addMatrix path names rows cols numbers mode format) := by
  rw [addMatrix]
  refine .bind failsInside_requireDimension fun size => .ite (.refuse rfl) ?_
  exact .bind failsInside_requireNames fun _ => .bind failsInside_texts fun _ => failsInside_buildMatrix

theorem failsInside_appendHeader : FailsInside appendHeader := by
  rw [appendHeader]
  refine .bind failsInside_document fun d => ?_
  split
  · exact failsInside_appendElement
  · exact .throw rfl

theorem failsInside_appendFields {fields : List (String × String)} : FailsInside (appendFields id fields) :=
  .forM fun _ => .discard failsInside_appendElement

theorem failsInside_addToolHeader {h : ToolHeader} {time : String} : FailsInside (addToolHeader h time) :=
  .bind failsInside_appendHeader fun _ => .bind failsInside_appendElement fun _ =>
    .bind failsInside_appendFields fun _ => failsInside_appendFields

theorem failsInside_addDataHeader {h : DataHeader} {time : String} : FailsInside (addDataHeader h time) :=
  .bind failsInside_appendHeader fun _ => failsInside_appendFields

theorem failsInside_addExternalLink : FailsInside (addExternalLink path uri format) := by
  rw [addExternalLink]
  refine .bind failsInside_insertElement fun id => ?_
  split
  · exact failsInside_change
  · exact .pure

end Edit

theorem Change.failsInside_edit (c : Change) {edit : Edit Answer} (accepted : c.edit = .ok edit) :
    FailsInside edit := by
  have done {x : Edit Unit} (h : FailsInside x) : FailsInside (do x; return Answer.done) :=
    .bind h fun _ => .pure
  cases c with
  | updateElement path value =>
    cases e : value.write with
    | error => rw [Change.edit, e] at accepted; cases accepted
    | ok text => rw [Change.edit, e] at accepted; cases accepted; exact done Edit.failsInside_updateText
  | addElement parent name uri value place =>
    cases e : value.mapM Scalar.write with
    | error => rw [Change.edit, e] at accepted; cases accepted
    | ok text =>
      rw [Change.edit, e] at accepted
      cases accepted
      exact done (.discard Edit.failsInside_insertElement)
  | setAttribute path name value =>
    cases e : value.write with
    | error => rw [Change.edit, e] at accepted; cases accepted
    | ok text =>
      rw [Change.edit, e] at accepted
      cases accepted
      exact done Edit.failsInside_setAttribute
  | renameChildren => cases accepted; exact done Edit.failsInside_renameChildren
  | remove => cases accepted; exact done Edit.failsInside_remove
  | swap => cases accepted; exact done Edit.failsInside_swap
  | importMarkup => cases accepted; exact done Edit.failsInside_importMarkup
  | removeAttribute => cases accepted; exact done Edit.failsInside_removeAttribute
  | setNamespace => cases accepted; exact done Edit.failsInside_setNamespace
  | declareNamespace => cases accepted; exact done Edit.failsInside_declareNamespace
  | setUid => cases accepted; exact done Edit.failsInside_setUid
  | addLink => cases accepted; exact .bind Edit.failsInside_addLink fun _ => .pure
  | addVector => cases accepted; exact done Edit.failsInside_addVector
  | updateVector => cases accepted; exact done Edit.failsInside_updateVector
  | addPoint => cases accepted; exact done Edit.failsInside_addPoint
  | addList => cases accepted; exact done Edit.failsInside_addList
  | addEmptyMatrix => cases accepted; exact done Edit.failsInside_addEmptyMatrix
  | addMatrix => cases accepted; exact done Edit.failsInside_addMatrix
  | addToolHeader => cases accepted; exact done Edit.failsInside_addToolHeader
  | addDataHeader => cases accepted; exact done Edit.failsInside_addDataHeader
  | addExternalLink => cases accepted; exact done Edit.failsInside_addExternalLink

/-! ## Settings and files -/

theorem Preferences.failsInside_registerAll {preferences : Preferences} {document : Document} :
    FailsInside (preferences.registerAll document) := by
  rw [registerAll]
  refine .foldlM fun preferences b => ?_
  split
  · exact .pure
  · have stem : "default namespace".toList <+: "default namespace '".toList := by decide +kernel
    have remark : Message.Remark ⟨.status, s!"default namespace '{b.uri}' not registered, it has no prefix"⟩ :=
      ⟨_, List.mem_of_getElem? (i := 2) rfl, prefix_append_toList _ (prefix_append_toList _ stem)⟩
    exact .bind (.say remark) fun _ => .pure

theorem Setting.failsInside_apply (setting : Setting) {document : Document} {preferences : Preferences} :
    FailsInside (setting.apply document preferences) := by
  cases setting with
  | prettyPrint flag => exact .ite .pure (.ite .pure (.throw rfl))
  | caching on => exact .pure
  | registerNamespace uri qualifier =>
    exact .bind (.lift innerErrors_checkQualifier) fun _ => .bind (.lift innerErrors_checkUri) fun _ => .pure
  | registerAll => exact Preferences.failsInside_registerAll

namespace External

theorem failsInside_writeFile : FailsInside (writeFile path text) := by
  rw [writeFile]
  refine .bind (.ofAction (x := (getThe Files : StateM Files Files)) trivial) fun files => ?_
  cases files.write path (utf8Bytes text) with
  | ok files' => exact .ofAction (x := (set files' : StateM Files PUnit)) trivial
  | error cause => exact .throw rfl

theorem failsInside_splitElement {base : String} {options : WriteOptions} {d : Document} {id : NodeId} :
    FailsInside (splitElement base options d id) := by
  rw [splitElement]
  dsimp only
  split
  · exact .bind failsInside_writeFile fun _ => .pure
  · exact .pure

theorem failsInside_save {d : OpenDocument} {mode : SaveMode} : FailsInside (save d path mode) := by
  refine .bind ?_ fun _ => failsInside_writeFile
  cases mode with
  | complete => exact .pure
  | split => exact .foldlM fun _ _ => failsInside_splitElement
  | removed => exact .pure

end External

end XmlStore
