/-
The calls that give elements identifiers and add links to them, and the two
checks that come after. A check fails only for what it names: an identifier
that two elements bear, a link that leads to none. So what an edit makes of the
identifiers and links of a document decides what the checks come to.
-/
import XmlStore.Proofs.EditRuns
import XmlStore.Proofs.Handles
import XmlStore.Proofs.Identities
import XmlStore.Proofs.Sessions

namespace XmlStore

open Tracked (Ensures)

/-! ## The edits -/

namespace Edit

variable {o : OpenDocument} {path name value text uid target : String} {mode : LinkMode} {p : NodeId}

theorem left_of_eq (sound : o.document.Sound) (u : OpenDocument) (same : u = o) : Left u := same ▸ sound

theorem ensures_finds (sound : o.document.Sound) :
    Ensures (· = o) (look (Lookup.node path)) (fun id u => u = o ∧ Lookup.Finds o path id) Left := by
  refine ensures_asked (Q := fun _ => Lookup.Finds o path) (left_of_eq sound) ?_
  rintro u rfl
  let asked : OpenDocument := { u with preferences := { u.preferences with caching := false } }
  have found : Lookup.Yields asked (Lookup.node path) (Lookup.Finds asked path) :=
    Lookup.yields_node sound.made.rooted rfl
  refine found.imp (fun _ h => h) fun id _ finds => ?_
  obtain ⟨selected, attached, inner⟩ := finds
  rw [OpenDocument.select] at selected
  exact ⟨by rw [OpenDocument.select]; exact selected, attached, inner⟩

/-- The element at a path has been given an attribute. -/
def AttributeSet (o : OpenDocument) (path name value : String) (d : Document) : Prop :=
  ∃ e, Lookup.Finds o path e ∧ o.document.isElement e = true ∧ d = o.document.setAttribute e name value

/-- A link to an identifier that some element bears has been added, or was there already. -/
def LinkAdded (d : Document) (name target : String) (d' : Document) : Prop :=
  (∃ b, d.Bears b target) ∧ (d' = d ∨ ∃ p, d.Attached p ∧
    d' = (d.addElement p name).setAttribute ⟨d.size⟩ linkAttribute target)

theorem ensures_attributeSet (sound : o.document.Sound) : Ensures (· = o) (setAttribute path name value)
    (fun _ u => AttributeSet o path name value u.document) Left := by
  have left := left_of_eq sound
  rw [setAttribute]
  dsimp only
  split
  · exact .refuse left
  refine .bind (ensures_requireName left) fun _ => .assume fun _ => ?_
  refine .bind (ensures_finds sound) fun e => ?_
  refine .bind ensures_document fun d => ?_
  have refused : ∀ u : OpenDocument, (u = o ∧ Lookup.Finds o path e) ∧ u.document = d → Left u :=
    fun u state => left u state.1.1
  split
  · exact .refuse refused
  rename_i element
  -- A qualifier may still be refused; otherwise the change is the same with one and without.
  have set : Ensures (fun u => (u = o ∧ Lookup.Finds o path e) ∧ u.document = d) (change (·.setAttribute e name value))
      (fun _ u => AttributeSet o path name value u.document) Left := by
    refine .modify ?_
    rintro _ ⟨⟨rfl, finds⟩, rfl⟩
    exact ⟨e, finds, by simpa using element, rfl⟩
  split
  · split
    · exact .refuse refused
    · exact set
  · exact set

theorem ensures_uidSet (sound : o.document.Sound) : Ensures (· = o) (setUid path uid)
    (fun _ u => AttributeSet o path uidAttribute uid u.document) Left := by
  have left := left_of_eq sound
  rw [setUid]
  refine .bind ensures_peek fun d => ?_
  exact .bind (.report left fun _ h _ _ _ => h) fun _ => ensures_attributeSet sound

/-- An element without a text, appended to a document. -/
theorem ensures_elementAdded (sound : o.document.Sound) : Ensures (· = o) (appendElement p name "")
    (fun id u => id = ⟨o.document.size⟩ ∧ u.document = o.document.addElement p name) Left := by
  rw [appendElement]
  have created : Ensures (· = o) (create (.element (.named ⟨none, name⟩))) (fun id u => id = ⟨o.document.size⟩ ∧
      u.document = (o.document.create (.element (.named ⟨none, name⟩))).2) Left := by
    refine (ensures_create _).imp (fun _ h => h) ?_
    rintro _ _ ⟨_, rfl, rfl, rfl⟩
    exact ⟨rfl, rfl⟩
  refine .bind created fun id => ?_
  refine .bind (Q := fun _ u => id = ⟨o.document.size⟩ ∧ u.document = o.document.addElement p name)
    (.modify ?_) fun _ => ?_
  · rintro u ⟨rfl, document⟩
    dsimp only
    rw [document]
    exact ⟨rfl, rfl⟩
  · exact .bind (.pure fun _ h => h) fun _ => .pure fun _ h => h

theorem ensures_linkAdded (sound : o.document.Sound) : Ensures (· = o) (addLink path name target mode)
    (fun _ u => LinkAdded o.document name target u.document) Left := by
  have left := left_of_eq sound
  have borne : Ensures (· = o) (look (Lookup.withUid target)) (fun b u => u = o ∧ o.document.Bears b target) Left := by
    refine ensures_asked (Q := fun _ b => o.document.Bears b target) left ?_
    rintro u rfl
    exact Lookup.yields_withUid.imp (fun _ h => h) fun b _ found => Document.bears_of_withUid? sound.made found
  rw [addLink]
  refine .bind (ensures_requireName left) fun _ => .assume fun _ => ?_
  refine .bind borne fun b => .assume fun bears => ?_
  refine .bind ensures_peek fun _ => ?_
  refine .bind (ensures_finds sound) fun p => .assume fun finds => ?_
  refine .bind ensures_peek fun d => ?_
  dsimp only
  split
  · refine .bind (ensures_elementAdded sound) fun id => ?_
    refine .bind (Q := fun _ u => u.document =
      (o.document.addElement p name).setAttribute ⟨o.document.size⟩ linkAttribute target) (.modify ?_) fun _ => ?_
    · rintro u ⟨rfl, document⟩
      dsimp only
      rw [document]
    · exact .pure fun u document => ⟨⟨b, bears⟩, .inr ⟨p, finds.attached, document⟩⟩
  · exact .pure fun u same => ⟨⟨b, bears⟩, .inl (congrArg _ same)⟩

end Edit

/-! ## What is answered -/

/-- The outcome of a computation that only gives off messages and may fail. -/
theorem Tracked.outcome_report {σ : Type} (state : σ) (c : Reported Unit) :
    (conclude state (do liftM c; return Answer.done)).1.1 =
      match (c.run.run []).1 with
      | .ok _ => .answered .done
      | .error e => .refused e := by
  have run : (((liftM c : Tracked σ Unit) >>= fun _ => pure Answer.done).run.run state).run [] =
      match c.run.run [] with
      | (.ok _, messages) => ((.ok Answer.done, state), messages)
      | (.error e, messages) => ((.error e, state), messages) := by
    have lifted : ((liftM c : Tracked σ Unit).run.run state).run [] =
      (((c.run.run []).1, state), (c.run.run []).2) := rfl
    rw [ExceptT.run_bind, StateT.run_bind, StateT.run_bind, lifted]
    rcases c.run.run [] with ⟨_ | _, messages⟩ <;> rfl
  rw [conclude, run]
  rcases c.run.run [] with ⟨_ | _, messages⟩ <;> rfl

namespace Session

variable {s : Session} {handle : Handle} {o : OpenDocument}

/-- Whatever patience it is given, a question comes to this. -/
def Gives (s : Session) (handle : Handle) (q : Question) (outcome : Outcome) : Prop :=
  ∀ patience, (s.call patience (.ask handle q)).1.outcome = outcome

theorem gives_of_conclude {q : Question} {outcome : Outcome} (found : s.store.document? handle = some o)
    (concluded : (Tracked.conclude o.cache (q.lookup.run o)).1.1 = outcome) : s.Gives handle q outcome := by
  intro patience
  rw [call]
  dsimp only
  rw [Store.ask, found]
  exact concluded

theorem gives_checkUids (made : o.document.Made) (found : s.store.document? handle = some o) :
    o.document.Distinct ∧ s.Gives handle .checkUids (.answered .done) ∨
      ∃ uid, uid ≠ "" ∧ (∃ a b, a ≠ b ∧ o.document.Bears a uid ∧ o.document.Bears b uid) ∧
        s.Gives handle .checkUids (.refused (.uidNotUnique uid)) := by
  have outcome := made.run_checkUids []
  have gives : s.Gives handle .checkUids _ := gives_of_conclude found (Tracked.outcome_report o.cache o.document.checkUids)
  generalize (o.document.checkUids.run.run []).1 = result at outcome gives
  cases result with
  | ok => exact .inl ⟨outcome, gives⟩
  | error e =>
    obtain ⟨uid, filled, rfl, shared⟩ := outcome
    exact .inr ⟨uid, filled, shared, gives⟩

theorem gives_checkLinks (made : o.document.Made) (found : s.store.document? handle = some o) :
    o.document.Resolved ∧ s.Gives handle .checkLinks (.answered .done) ∨
      ∃ link, (∃ a, o.document.LeadsTo a link) ∧ (¬ ∃ b, o.document.Bears b link) ∧
        s.Gives handle .checkLinks (.refused (.uidLinkBroken link)) := by
  have outcome : (Tracked.conclude o.cache (Question.checkLinks.lookup.run o)).1.1 =
      (o.document.links.find? (!(o.document.uids.map (·.1)).contains ·)).elim (.answered .done)
        fun link => .refused (.uidLinkBroken link) := by
    have asked : ReaderT.run (read : Lookup OpenDocument) o = pure o := rfl
    rw [Question.lookup, Lookup.checkLinks, ReaderT.run_bind, ReaderT.run_bind, asked, pure_bind]
    dsimp only
    cases o.document.links.find? (!(o.document.uids.map (·.1)).contains ·) <;> rfl
  have gives := gives_of_conclude found outcome
  cases broken : o.document.links.find? (!(o.document.uids.map (·.1)).contains ·) with
  | none =>
    rw [broken] at gives
    refine .inl ⟨fun a link leads => made.contains_uids.mp ?_, gives⟩
    simpa using List.find?_eq_none.mp broken link (made.mem_links.mpr ⟨a, leads⟩)
  | some link =>
    rw [broken] at gives
    have dangling := List.find?_some broken
    rw [Bool.not_eq_true', ← Bool.not_eq_true, made.contains_uids] at dangling
    exact .inr ⟨link, made.mem_links.mp (List.mem_of_find?_eq_some broken), dangling, gives⟩

theorem gives_of_distinct (made : o.document.Made) (found : s.store.document? handle = some o)
    (distinct : o.document.Distinct) : s.Gives handle .checkUids (.answered .done) := by
  rcases gives_checkUids made found with ⟨-, gives⟩ | ⟨uid, filled, ⟨a, b, ne, ha, hb⟩, -⟩
  · exact gives
  · exact absurd (distinct a b uid filled ha hb) ne

theorem gives_of_resolved (made : o.document.Made) (found : s.store.document? handle = some o)
    (resolved : o.document.Resolved) : s.Gives handle .checkLinks (.answered .done) := by
  rcases gives_checkLinks made found with ⟨-, gives⟩ | ⟨link, ⟨a, leads⟩, broken, -⟩
  · exact gives
  · exact absurd (resolved a link leads) broken

/-- An answered change has changed nothing of the open document but the document itself. -/
theorem kept_of_answered {c : Change} {edit : Edit Answer} {Q : Answer → Document → Prop} {R : OpenDocument → Prop}
    {patience : Nat} {a : Answer} (found : s.store.document? handle = some o) (accepted : c.edit = .ok edit)
    (ensures : Ensures (· = o) edit (fun b u => Q b u.document) R)
    (answered : (s.call patience (.change handle c)).1.outcome = .answered a) :
    ∃ d, (s.call patience (.change handle c)).2.store.document? handle =
      some { o with document := d, cache := none } ∧ Q a d := by
  dsimp only [call] at answered ⊢
  rw [Store.change, accepted, found] at answered ⊢
  dsimp only at answered ⊢
  split at answered
  · cases answered
  · rename_i editable
    rw [if_neg editable]
    refine ⟨(edit.conclude o).2.document, ?_, ensures.of_answered rfl answered⟩
    rw [Store.document?_update, found, Option.map_some, if_pos rfl]

/-- What an answered change has made of the document under a handle. -/
theorem changed_of_answered {c : Change} {edit : Edit Answer} {Q : Document → Prop} {R : OpenDocument → Prop}
    {patience : Nat} {a : Answer} (found : s.store.document? handle = some o) (accepted : c.edit = .ok edit)
    (ensures : Ensures (· = o) edit (fun _ u => Q u.document) R)
    (answered : (s.call patience (.change handle c)).1.outcome = .answered a) :
    ∃ o', (s.call patience (.change handle c)).2.store.document? handle = some o' ∧ Q o'.document := by
  obtain ⟨d, found', changed⟩ := kept_of_answered (Q := fun _ => Q) found accepted ensures answered
  exact ⟨_, found', changed⟩

/-- What the checks come to in a document with distinct identifiers whose links all lead somewhere, after
one of its elements has been given an identifier. -/
theorem gives_of_uidSet {d : Document} {e : NodeId} {uid : String} (made : o.document.Made)
    (found : s.store.document? handle = some o) (changed : o.document = d.setAttribute e uidAttribute uid)
    (he : d.Attached e) (element : d.isElement e = true) (distinct : d.Distinct) (resolved : d.Resolved) :
    (d.Free e uid → s.Gives handle .checkUids (.answered .done)) ∧
    (¬ d.Free e uid → s.Gives handle .checkUids (.refused (.uidNotUnique uid))) ∧
    (d.Spare e uid → s.Gives handle .checkLinks (.answered .done)) ∧
    (¬ d.Spare e uid → ∃ former, d.Bears e former ∧ s.Gives handle .checkLinks (.refused (.uidLinkBroken former))) := by
  have uids := gives_checkUids made found
  have links := gives_checkLinks made found
  rw [changed] at uids links
  rw [← and_assoc]
  constructor
  · rcases uids with ⟨kept, gives⟩ | ⟨v, filled, ⟨a, b, ne, ha, hb⟩, gives⟩
    · exact ⟨fun _ => gives, fun taken => absurd (Document.free_of_distinct he element kept) taken⟩
    · obtain ⟨rfl, taken⟩ := distinct.shared_setUid he element filled ne ha hb
      exact ⟨fun free => absurd free taken, fun _ => gives⟩
  · rcases links with ⟨kept, gives⟩ | ⟨former, ⟨a, leads⟩, broken, gives⟩
    · exact ⟨fun _ => gives, fun needed => absurd (Document.spare_of_resolved he element kept) needed⟩
    · obtain ⟨bears, needed⟩ := resolved.broken_setUid he element leads broken
      exact ⟨fun spare => absurd spare needed, fun _ => ⟨former, bears, gives⟩⟩

end Session

/-- In a document whose identifiers are distinct and whose links all lead somewhere, both checks succeed
after a link has been added. After an identifier has been set, the check for repetitions succeeds if no
other element bears it or it is empty, and otherwise names it; the check of the links succeeds if no
link leads to the identifier that gave way or another element bears it too, and otherwise names that. -/
theorem checks_of_identified {s : Session} {handle : Handle} {o : OpenDocument} (reachable : s.Reachable)
    (found : s.store.document? handle = some o) (distinct : o.document.Distinct) (resolved : o.document.Resolved)
    (patience : Nat) (a : Answer) :
    (∀ parent name target mode,
      let (reply, s') := s.call patience (.change handle (.addLink parent name target mode))
      reply.outcome = .answered a →
        s'.Gives handle .checkUids (.answered .done) ∧ s'.Gives handle .checkLinks (.answered .done)) ∧
    ∀ path uid,
      let (reply, s') := s.call patience (.change handle (.setUid path uid))
      reply.outcome = .answered a → ∃ e, o.select (Lookup.withoutSlash path) = .ok [.node e] ∧
        (o.document.Free e uid → s'.Gives handle .checkUids (.answered .done)) ∧
        (¬ o.document.Free e uid → s'.Gives handle .checkUids (.refused (.uidNotUnique uid))) ∧
        (o.document.Spare e uid → s'.Gives handle .checkLinks (.answered .done)) ∧
        (¬ o.document.Spare e uid → ∃ former, o.document.Bears e former ∧
          s'.Gives handle .checkLinks (.refused (.uidLinkBroken former))) := by
  have sound := reachable.allSound.of_document? found
  constructor
  · intro parent name target mode answered
    have after := reachable.call patience (.change handle (.addLink parent name target mode))
    obtain ⟨o', found', ⟨b, bears⟩, changed⟩ := Session.changed_of_answered
      (Q := Edit.LinkAdded o.document name target) found rfl (.bind (Edit.ensures_linkAdded sound) fun _ => .pure fun _ h => h) answered
    have made := after.allMade.of_document? found'
    rcases changed with same | ⟨p, attached, added⟩
    · exact ⟨Session.gives_of_distinct made found' (same ▸ distinct),
        Session.gives_of_resolved made found' (same ▸ resolved)⟩
    · have rooted := sound.made.rooted
      exact ⟨Session.gives_of_distinct made found' (added ▸ distinct.addedLink rooted attached),
        Session.gives_of_resolved made found' (added ▸ resolved.addedLink rooted attached bears)⟩
  · intro path uid answered
    have after := reachable.call patience (.change handle (.setUid path uid))
    obtain ⟨o', found', e, finds, element, changed⟩ := Session.changed_of_answered
      (Q := Edit.AttributeSet o path uidAttribute uid) found rfl (.bind (Edit.ensures_uidSet sound) fun _ => .pure fun _ h => h) answered
    have made := after.allMade.of_document? found'
    exact ⟨e, finds.selected,
      Session.gives_of_uidSet made found' changed finds.attached element distinct resolved⟩

/-- A document with two elements: the root element bears an identifier, and the one below it is a link to
that. -/
def Session.linked : Session :=
  let created := (Session.mk (.ofOptions .default) ⟨[], []⟩).call 0 (.create "a")
  let identified := created.2.call 0 (.change 1 (.setUid "/a" "x"))
  (identified.2.call 0 (.change 1 (.addLink "/a" "b" "x" .create))).2

theorem Session.reachable_linked : Session.linked.Reachable :=
  .call (.call (.call (.start .default ⟨[], []⟩) 0 _) 0 _) 0 _

theorem Outcome.eq_done {outcome : Outcome} (done : (outcome matches .answered .done) = true) :
    outcome = .answered .done := by
  split at done
  · rfl
  · cases done

theorem Outcome.exists_answer {outcome : Outcome} (answered : (outcome matches .answered _) = true) :
    ∃ a, outcome = .answered a := by
  split at answered
  · exact ⟨_, rfl⟩
  · cases answered

theorem Session.document?_linked : ∃ o, Session.linked.store.document? 1 = some o ∧ o.document.Made ∧
    o.document.uids = [("x", ⟨1⟩)] ∧ o.document.links = ["x"] ∧ o.document.Distinct ∧ o.document.Resolved := by
  have evaluated : (Session.linked.store.document? 1).map (fun o => (o.document.uids, o.document.links)) =
    some ([("x", ⟨1⟩)], ["x"]) := by decide +kernel
  obtain ⟨o, found, lists⟩ := Option.map_eq_some_iff.mp evaluated
  obtain ⟨uids, links⟩ := Prod.mk.inj lists
  have made := Session.reachable_linked.allMade.of_document? found
  have bearer {a : NodeId} {uid : String} (bears : o.document.Bears a uid) : uid = "x" ∧ a = ⟨1⟩ := by
    have mem := made.mem_uids.mpr bears
    rw [uids, List.mem_singleton] at mem
    exact Prod.mk.inj mem
  refine ⟨o, found, made, uids, links, fun a b uid _ ha hb => (bearer ha).2.trans (bearer hb).2.symm, ?_⟩
  intro a link leads
  have mem := made.mem_links.mpr ⟨a, leads⟩
  rw [links, List.mem_singleton] at mem
  subst mem
  exact ⟨⟨1⟩, made.mem_uids.mp (uids ▸ List.mem_cons_self)⟩

/-- Another link is added, or the link is given an identifier of its own. -/
theorem checks_of_identified_linked : ∃ o, Session.linked.Reachable ∧ Session.linked.store.document? 1 = some o ∧
    o.document.Distinct ∧ o.document.Resolved ∧
    (let (reply, s') := Session.linked.call 0 (.change 1 (.addLink "/a" "c" "x" .create))
     (∃ a, reply.outcome = .answered a) ∧
      s'.Gives 1 .checkUids (.answered .done) ∧ s'.Gives 1 .checkLinks (.answered .done)) ∧
    let (reply, s') := Session.linked.call 0 (.change 1 (.setUid "/a/b" "y"))
    reply.outcome = .answered .done ∧ s'.Gives 1 .checkUids (.answered .done) := by
  obtain ⟨o, found, made, uids, -, distinct, resolved⟩ := Session.document?_linked
  obtain ⟨a, added⟩ : ∃ a, (Session.linked.call 0 (.change 1 (.addLink "/a" "c" "x" .create))).1.outcome = .answered a :=
    Outcome.exists_answer (by decide +kernel)
  have given : (Session.linked.call 0 (.change 1 (.setUid "/a/b" "y"))).1.outcome = .answered .done :=
    Outcome.eq_done (by decide +kernel)
  obtain ⟨links, -⟩ := checks_of_identified Session.reachable_linked found distinct resolved 0 a
  obtain ⟨-, ids⟩ := checks_of_identified Session.reachable_linked found distinct resolved 0 .done
  obtain ⟨e, -, free, -⟩ := ids "/a/b" "y" given
  refine ⟨o, Session.reachable_linked, found, distinct, resolved, ⟨⟨a, added⟩, links "/a" "c" "x" .create added⟩, given,
    free (.inr fun b bears => ?_)⟩
  have mem := made.mem_uids.mpr bears
  rw [uids] at mem
  simp at mem

/-- The link is given the identifier of the root element, or the root element another one. -/
theorem checks_lost_of_uidSet : ∃ o, Session.linked.Reachable ∧ Session.linked.store.document? 1 = some o ∧
    o.document.Distinct ∧ o.document.Resolved ∧
    (let (reply, s') := Session.linked.call 0 (.change 1 (.setUid "/a/b" "x"))
     reply.outcome = .answered .done ∧ s'.Gives 1 .checkUids (.refused (.uidNotUnique "x"))) ∧
    let (reply, s') := Session.linked.call 0 (.change 1 (.setUid "/a" "y"))
    reply.outcome = .answered .done ∧ s'.Gives 1 .checkLinks (.refused (.uidLinkBroken "x")) := by
  obtain ⟨o, found, -, -, -, distinct, resolved⟩ := Session.document?_linked
  refine ⟨o, Session.reachable_linked, found, distinct, resolved, ⟨Outcome.eq_done (by decide +kernel), ?_⟩,
    Outcome.eq_done (by decide +kernel), ?_⟩
  · have evaluated : ((Session.linked.call 0 (.change 1 (.setUid "/a/b" "x"))).2.store.document? 1).map (·.document.uids) =
      some [("x", ⟨1⟩), ("x", ⟨2⟩)] := by decide +kernel
    obtain ⟨o', found', uids⟩ := Option.map_eq_some_iff.mp evaluated
    have made := (Session.reachable_linked.call 0 _).allMade.of_document? found'
    rcases Session.gives_checkUids made found' with ⟨kept, -⟩ | ⟨uid, -, ⟨a, -, -, bears, -⟩, gives⟩
    · have both : o'.document.Bears ⟨1⟩ "x" ∧ o'.document.Bears ⟨2⟩ "x" := by
        rw [← made.mem_uids, ← made.mem_uids, uids]
        decide
      exact absurd (kept _ _ "x" (by decide) both.1 both.2) (by decide)
    · have mem := made.mem_uids.mpr bears
      rw [uids] at mem
      obtain rfl : uid = "x" := by simpa using List.mem_map_of_mem (f := Prod.fst) mem
      exact gives
  · have evaluated : ((Session.linked.call 0 (.change 1 (.setUid "/a" "y"))).2.store.document? 1).map
      (fun o => (o.document.uids, o.document.links)) = some ([("y", ⟨1⟩)], ["x"]) := by decide +kernel
    obtain ⟨o', found', lists⟩ := Option.map_eq_some_iff.mp evaluated
    obtain ⟨uids, links⟩ := Prod.mk.inj lists
    have made := (Session.reachable_linked.call 0 _).allMade.of_document? found'
    rcases Session.gives_checkLinks made found' with ⟨kept, -⟩ | ⟨link, led, -, gives⟩
    · obtain ⟨a, leads⟩ := made.mem_links.mp (links ▸ List.mem_cons_self : "x" ∈ o'.document.links)
      obtain ⟨b, bears⟩ := kept a "x" leads
      have mem := made.mem_uids.mpr bears
      rw [uids] at mem
      simp at mem
    · have mem := made.mem_links.mpr led
      rw [links, List.mem_singleton] at mem
      exact mem ▸ gives

end XmlStore
