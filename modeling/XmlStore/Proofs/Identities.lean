/-
Identifiers of elements and links to them. `Distinct` says that no two elements
of the tree bear the same identifier, and `Resolved` that every link leads to
an identifier that some element bears. A new link to an identifier that is
borne keeps both. An identifier that is given to an element keeps the one
unless another element bears it, and the other unless links lead to the
identifier that it takes the place of.
-/
import Mathlib.Data.List.Count
import XmlStore.Store.Identifiers
import XmlStore.Proofs.Preorder
import XmlStore.Proofs.Trails

namespace XmlStore

namespace Document

variable {d d' : Document} {a b e p : NodeId} {name other value uid link target : String}

theorem attribute?_setAttribute (has : d.Has e) (element : d.isElement e = true) :
    (d.setAttribute e name value).attribute? a other =
      if a = e ∧ other = name then some value else d.attribute? a other := by
  rw [attribute?, setAttribute, modifyTag, content_modifyContent has]
  by_cases here : a = e
  · subst here
    rw [if_pos rfl, attribute?]
    rw [isElement] at element
    cases content : d.content a with
    | element tag =>
      by_cases same : other = name
      · subst same
        rw [if_pos ⟨rfl, rfl⟩]
        exact tag.attribute?_setAttribute ..
      · rw [if_neg fun both => same both.2]
        exact tag.attribute?_setAttribute_of_ne same ..
    | _ =>
      rw [content] at element
      cases element
  · rw [if_neg here, if_neg fun both => here both.1, attribute?]

/-! ## What the elements of the tree carry -/

/-- A node of the tree that has an attribute with a certain value. -/
structure Carries (d : Document) (name : String) (a : NodeId) (value : String) : Prop where
  attached : d.Attached a
  given : d.attribute? a name = some value

/-- An element that an identifier stands for. -/
abbrev Bears (d : Document) : NodeId → String → Prop := d.Carries uidAttribute

/-- An element that is a link to an identifier. -/
abbrev LeadsTo (d : Document) : NodeId → String → Prop := d.Carries linkAttribute

/-- No two elements bear the same identifier, the empty one aside. -/
def Distinct (d : Document) : Prop := ∀ a b uid, uid ≠ "" → d.Bears a uid → d.Bears b uid → a = b

/-- Every link leads to an element. -/
def Resolved (d : Document) : Prop := ∀ a link, d.LeadsTo a link → ∃ b, d.Bears b link

/-- The document node has no attributes. -/
theorem Made.carries_iff (made : d.Made) :
    d.Carries name a value ↔ a ∈ d.descendants root ∧ d.attribute? a name = some value := by
  constructor
  · rintro ⟨attached, given⟩
    refine ⟨?_, given⟩
    rcases List.mem_cons.mp (made.rooted.mem_documentOrder.mpr attached) with rfl | below
    · rw [attribute?, made.content_root] at given
      cases given
    · exact below
  · rintro ⟨below, given⟩
    exact ⟨attached_descendants made.rooted (attached_root made.rooted) a below, given⟩

theorem Made.mem_uids (made : d.Made) : (uid, a) ∈ d.uids ↔ d.Bears a uid := by
  rw [Bears, made.carries_iff, uids, List.mem_filterMap]
  constructor
  · rintro ⟨b, below, found⟩
    obtain ⟨uid', given, same⟩ := Option.map_eq_some_iff.mp found
    cases same
    exact ⟨below, given⟩
  · rintro ⟨below, given⟩
    exact ⟨a, below, by rw [given, Option.map_some]⟩

theorem Made.mem_links (made : d.Made) : link ∈ d.links ↔ ∃ a, d.LeadsTo a link := by
  rw [links, List.mem_filterMap]
  exact exists_congr fun a => made.carries_iff.symm

theorem Made.contains_uids (made : d.Made) :
    (d.uids.map (·.1)).contains uid = true ↔ ∃ a, d.Bears a uid := by
  rw [List.contains_iff_mem, List.mem_map]
  constructor
  · rintro ⟨⟨uid', a⟩, mem, rfl⟩
    exact ⟨a, made.mem_uids.mp mem⟩
  · rintro ⟨a, bears⟩
    exact ⟨(uid, a), made.mem_uids.mpr bears, rfl⟩

theorem bears_of_withUid? (made : d.Made) (found : d.withUid? uid = some a) : d.Bears a uid := by
  obtain ⟨u, v, place, -⟩ := List.lookup_eq_some_iff.mp found
  exact made.mem_uids.mp (by rw [place]; simp)

/-- An identifier is listed once for every element that bears it. -/
theorem Made.count_uids (made : d.Made) :
    (d.uids.map (·.1)).count uid ≤ 1 ↔ ∀ a b, d.Bears a uid → d.Bears b uid → a = b := by
  have nodup : d.uids.Nodup := by
    refine (made.rooted.wellLinked.nodup_descendants root).filterMap fun a b x ha hb => ?_
    obtain ⟨_, _, rfl⟩ := Option.map_eq_some_iff.mp ha
    obtain ⟨_, _, same⟩ := Option.map_eq_some_iff.mp hb
    exact (Prod.mk.inj same).2.symm
  have borne (x : String × NodeId) : x ∈ d.uids.filter (·.1 == uid) ↔ x.1 = uid ∧ d.Bears x.2 uid := by
    rw [List.mem_filter, beq_iff_eq]
    refine ⟨fun ⟨mem, same⟩ => ⟨same, same ▸ made.mem_uids.mp mem⟩, fun ⟨same, bears⟩ => ⟨?_, same⟩⟩
    exact made.mem_uids.mpr (same ▸ bears)
  rw [List.count, List.countP_map, List.countP_eq_length_filter, Function.comp_def]
  constructor
  · intro short a b ha hb
    have mem := (borne (uid, a)).mpr ⟨rfl, ha⟩
    have mem' := (borne (uid, b)).mpr ⟨rfl, hb⟩
    obtain ⟨x, only⟩ := List.length_eq_one_iff.mp (Nat.le_antisymm short (List.length_pos_of_mem mem))
    rw [only, List.mem_singleton] at mem mem'
    exact (Prod.mk.inj (mem.trans mem'.symm)).2
  · intro unique
    have nodup := nodup.filter (·.1 == uid)
    match bearers : d.uids.filter (·.1 == uid) with
    | [] | [_] => simp [bearers]
    | x :: y :: more =>
      rw [bearers] at nodup borne
      have hx := (borne x).mp List.mem_cons_self
      have hy := (borne y).mp (List.mem_cons_of_mem x List.mem_cons_self)
      have same : x = y := Prod.ext (hx.1.trans hy.1.symm) (unique _ _ hx.2 hy.2)
      exact absurd (same ▸ List.mem_cons_self) (List.nodup_cons.mp nodup).1

/-! ## Identifiers that are set and links that are added -/

theorem attached_setAttribute : (d.setAttribute e name value).Attached a ↔ d.Attached a := attached_modifyTag

theorem carries_setAttribute {v : String} (he : d.Attached e) (element : d.isElement e = true) :
    (d.setAttribute e name value).Carries other a v ↔
      if a = e ∧ other = name then v = value else d.Carries other a v := by
  have reads : (d.setAttribute e name value).attribute? a other =
      if a = e ∧ other = name then some value else d.attribute? a other := attribute?_setAttribute he.has element
  split
  · rename_i here
    rw [if_pos here] at reads
    refine ⟨fun c => Option.some.inj (c.given.symm.trans reads), ?_⟩
    rintro rfl
    exact ⟨attached_setAttribute.mpr (here.1 ▸ he), reads⟩
  · rename_i elsewhere
    rw [if_neg elsewhere] at reads
    exact ⟨fun c => ⟨attached_setAttribute.mp c.attached, reads ▸ c.given⟩,
      fun c => ⟨attached_setAttribute.mpr c.attached, reads.trans c.given⟩⟩

theorem attribute?_of_not_has (outside : ¬ d.Has a) : d.attribute? a name = none := by
  rw [attribute?, content, node, Array.getD_eq_getD_getElem?, Array.getElem?_eq_none (Nat.le_of_not_lt outside)]
  rfl

theorem attribute?_addElement : (d.addElement p name).attribute? a other = d.attribute? a other := by
  obtain ⟨uri, content⟩ := d.content_addElement p a name
  rw [attribute?, content]
  split
  · rename_i here
    rw [here, attribute?_of_not_has not_has_new]
    rfl
  · rfl

theorem target_addElement (link : Link) : (d.addElement p name).target link a =
    ((d.create (.element (.named ⟨none, name⟩))).2.append p ⟨d.size⟩).target link a :=
  target_modifyContent _

theorem attached_addElement (h : d.Rooted) (hp : d.Has p) (ha : d.Has a) :
    (d.addElement p name).Attached a ↔ d.Attached a := by
  have linked := h.wellLinked
  have linked' : (d.addElement p name).WellLinked := (h.addElement hp name).wellLinked
  have size : d.size ≤ (d.addElement p name).size := by
    rw [size_addElement]
    exact Nat.le_succ d.size
  have ha' : (d.addElement p name).Has a := Nat.lt_of_lt_of_le ha size
  have above : (d.addElement p name).ancestors a = d.ancestors a := by
    refine linked.ancestors_congr linked' ha ha' fun b hb => ?_
    exact (target_addElement .parent).trans (parent?_add linked hp _ (linked.has_ancestor ha hb))
  exact ⟨fun attached => ⟨ha, above ▸ attached.below_root⟩, fun attached => ⟨ha', above.symm ▸ attached.below_root⟩⟩

theorem attached_new (h : d.Rooted) (hp : d.Attached p) : (d.addElement p name).Attached ⟨d.size⟩ := by
  have there : (d.addElement p name).Attached p := (attached_addElement h hp.has hp.has).mpr hp
  refine there.child (h.addElement hp.has name) ((target_addElement .parent).trans ?_)
  have added := edited_add h.wellLinked hp.has (.element (.named ⟨none, name⟩))
  rw [← parent?, ← added.wellLinked.parent, added.children, Function.update_self]
  exact List.mem_append_right _ List.mem_cons_self

theorem carries_addElement {v : String} (h : d.Rooted) (hp : d.Has p) :
    (d.addElement p name).Carries other a v ↔ d.Carries other a v := by
  by_cases ha : d.Has a
  · have attached : (d.addElement p name).Attached a ↔ d.Attached a := attached_addElement h hp ha
    exact ⟨fun c => ⟨attached.mp c.attached, attribute?_addElement.symm.trans c.given⟩,
      fun c => ⟨attached.mpr c.attached, attribute?_addElement.trans c.given⟩⟩
  · refine ⟨fun c => ?_, fun c => absurd c.attached.has ha⟩
    have given := attribute?_addElement.symm.trans c.given
    rw [attribute?_of_not_has ha] at given
    cases given

/-- An element that has come with one attribute carries that and nothing else. -/
theorem carries_addedLink {v : String} (h : d.Rooted) (hp : d.Attached p) :
    ((d.addElement p name).setAttribute ⟨d.size⟩ linkAttribute target).Carries other a v ↔
      (a = ⟨d.size⟩ ∧ other = linkAttribute) ∧ v = target ∨ d.Carries other a v := by
  have element : (d.addElement p name).isElement ⟨d.size⟩ = true := by
    obtain ⟨uri, content⟩ := d.content_addElement p ⟨d.size⟩ name
    rw [isElement, content, if_pos rfl]
    rfl
  rw [carries_setAttribute (attached_new h hp) element, carries_addElement h hp.has]
  split
  · rename_i here
    refine ⟨fun e => .inl ⟨here, e⟩, fun c => c.elim And.right fun c => ?_⟩
    exact absurd (here.1 ▸ c.attached.has) not_has_new
  · rename_i elsewhere
    exact ⟨.inr, fun c => c.resolve_left fun new => elsewhere new.1⟩

section

variable (h : d.Rooted) (hp : d.Attached p)

include h hp

theorem Distinct.addedLink (distinct : d.Distinct) :
    ((d.addElement p name).setAttribute ⟨d.size⟩ linkAttribute target).Distinct := by
  intro a b uid filled ha hb
  have borne {a : NodeId} (c : ((d.addElement p name).setAttribute ⟨d.size⟩ linkAttribute target).Bears a uid) :
      d.Bears a uid :=
    ((carries_addedLink h hp).mp c).resolve_left fun new => absurd new.1.2 (by decide)
  exact distinct a b uid filled (borne ha) (borne hb)

theorem Resolved.addedLink (resolved : d.Resolved) (borne : d.Bears b target) :
    ((d.addElement p name).setAttribute ⟨d.size⟩ linkAttribute target).Resolved := by
  intro a link leads
  rcases (carries_addedLink h hp).mp leads with ⟨-, rfl⟩ | old
  · exact ⟨b, (carries_addedLink h hp).mpr (.inr borne)⟩
  · obtain ⟨c, bears⟩ := resolved a link old
    exact ⟨c, (carries_addedLink h hp).mpr (.inr bears)⟩

end

/-- An identifier that no other element bears, or the empty one. -/
def Free (d : Document) (e : NodeId) (uid : String) : Prop := uid = "" ∨ ∀ b, d.Bears b uid → b = e

/-- An element whose identifier may give way to another: no link leads to it, or another element bears
it too. -/
def Spare (d : Document) (e : NodeId) (uid : String) : Prop :=
  ∀ former, d.Bears e former → former = uid ∨ (∀ a, ¬ d.LeadsTo a former) ∨ ∃ b, b ≠ e ∧ d.Bears b former

section

variable (he : d.Attached e) (element : d.isElement e = true)

include he element

theorem bears_setUid {v : String} :
    (d.setAttribute e uidAttribute uid).Bears a v ↔ if a = e then v = uid else d.Bears a v := by
  rw [Bears, carries_setAttribute he element]
  simp only [and_true]

theorem leadsTo_setUid : (d.setAttribute e uidAttribute uid).LeadsTo a link ↔ d.LeadsTo a link := by
  rw [LeadsTo, carries_setAttribute he element, if_neg fun here => absurd here.2 (by decide)]

theorem free_of_distinct (distinct : (d.setAttribute e uidAttribute uid).Distinct) : d.Free e uid := by
  refine or_iff_not_imp_left.mpr fun filled b bears => ?_
  by_contra other
  exact other (distinct b e uid filled ((bears_setUid he element).mpr ((if_neg other).mpr bears))
    ((bears_setUid he element).mpr ((if_pos rfl).mpr rfl)))

/-- Only the identifier that is set can come to be shared. -/
theorem Distinct.shared_setUid (distinct : d.Distinct) {v : String} (filled : v ≠ "") (ne : a ≠ b)
    (ha : (d.setAttribute e uidAttribute uid).Bears a v) (hb : (d.setAttribute e uidAttribute uid).Bears b v) :
    v = uid ∧ ¬ d.Free e uid := by
  rw [bears_setUid he element] at ha hb
  by_cases first : a = e
  · have second : b ≠ e := fun e => ne (first.trans e.symm)
    rw [if_pos first] at ha
    rw [if_neg second] at hb
    subst ha
    exact ⟨rfl, fun free => second (free.resolve_left filled b hb)⟩
  · rw [if_neg first] at ha
    by_cases second : b = e
    · rw [if_pos second] at hb
      subst hb
      exact ⟨rfl, fun free => first (free.resolve_left filled a ha)⟩
    · rw [if_neg second] at hb
      exact absurd (distinct a b v filled ha hb) ne

theorem spare_of_resolved (resolved : (d.setAttribute e uidAttribute uid).Resolved) : d.Spare e uid := by
  intro former bears
  by_cases same : former = uid
  · exact .inl same
  refine .inr (or_iff_not_imp_left.mpr fun led => ?_)
  obtain ⟨a, leads⟩ := not_forall_not.mp led
  obtain ⟨b, borne⟩ := resolved a former ((leadsTo_setUid he element).mpr leads)
  rw [bears_setUid he element] at borne
  by_cases here : b = e
  · rw [if_pos here] at borne
    exact absurd borne same
  · rw [if_neg here] at borne
    exact ⟨b, here, borne⟩

/-- Only links to the identifier that gave way can come to lead nowhere. -/
theorem Resolved.broken_setUid (resolved : d.Resolved) (leads : (d.setAttribute e uidAttribute uid).LeadsTo a link)
    (broken : ¬ ∃ b, (d.setAttribute e uidAttribute uid).Bears b link) : d.Bears e link ∧ ¬ d.Spare e uid := by
  have gone (b : NodeId) : ¬ if b = e then link = uid else d.Bears b link := fun borne =>
    broken ⟨b, (bears_setUid he element).mpr borne⟩
  have elsewhere (b : NodeId) (other : b ≠ e) : ¬ d.Bears b link := fun borne =>
    gone b ((if_neg other).mpr borne)
  rw [leadsTo_setUid he element] at leads
  obtain ⟨b, bears⟩ := resolved a link leads
  obtain rfl : b = e := by_contra fun other => elsewhere b other bears
  refine ⟨bears, fun spare => ?_⟩
  rcases spare link bears with same | unused | ⟨c, other, borne⟩
  · exact gone b ((if_pos rfl).mpr same)
  · exact unused a leads
  · exact elsewhere c other borne

end

end Document

/-! ## What the checks find -/

/-- A result that accepts exactly those numbers of occurrences by which no identifier is repeated, the
empty one aside, and otherwise names one that is. -/
def Judges (occurs : String → Nat) : Except Error Unit → Prop
  | .ok _ => ∀ uid, uid ≠ "" → occurs uid ≤ 1
  | .error e => ∃ uid, uid ≠ "" ∧ e = .uidNotUnique uid ∧ 1 < occurs uid

theorem Judges.congr {occurs occurs' : String → Nat} {result : Except Error Unit} (h : Judges occurs result)
    (same : ∀ uid, uid ≠ "" → occurs' uid = occurs uid) : Judges occurs' result := by
  cases result with
  | ok => exact fun uid filled => same uid filled ▸ h uid filled
  | error e =>
    obtain ⟨uid, filled, cause, often⟩ := h
    exact ⟨uid, filled, cause, same uid filled ▸ often⟩

theorem judges_checkDistinct {warned : Bool} {seen uids : List String} (before : ∀ uid, seen.count uid ≤ 1)
    (messages : List Message) :
    Judges (fun uid => uids.count uid + seen.count uid) ((checkDistinct warned seen uids).run.run messages).1 := by
  -- What was seen and what is to come count together, so that passing on the first one changes nothing.
  induction uids generalizing warned seen messages with
  | nil => exact fun uid _ => (Nat.zero_add _).trans_le (before uid)
  | cons u rest ih =>
    rw [checkDistinct]
    by_cases empty : u = ""
    · subst empty
      have onward (messages : List Message) : Judges (fun uid => ("" :: rest).count uid + seen.count uid)
          ((checkDistinct true seen rest).run.run messages).1 :=
        (ih before messages).congr fun uid filled => by rw [List.count_cons_of_ne filled.symm]
      rw [if_pos (String.isEmpty_iff.mpr rfl)]
      cases warned with
      | true => exact onward messages
      | false => exact onward _
    · rw [if_neg (mt String.isEmpty_iff.mp empty)]
      by_cases again : u ∈ seen
      · rw [if_pos (List.contains_iff_mem.mpr again)]
        refine ⟨u, empty, rfl, ?_⟩
        have earlier := List.count_pos_iff.mpr again
        change 1 < (u :: rest).count u + seen.count u
        rw [List.count_cons_self]
        omega
      · rw [if_neg (mt List.contains_iff_mem.mp again)]
        have seen_once (uid : String) : (u :: seen).count uid ≤ 1 := by
          by_cases same : u = uid
          · rw [← same, List.count_cons_self, List.count_eq_zero.mpr again]
          · rw [List.count_cons_of_ne same]
            exact before uid
        refine (ih seen_once messages).congr fun uid _ => ?_
        rw [List.count_cons, List.count_cons]
        omega

namespace Document

variable {d : Document} {a b : NodeId} {uid link : String}

/-- Identifiers are accepted if they are distinct, and otherwise one is named that two elements bear. -/
theorem Made.run_checkUids (made : d.Made) (messages : List Message) :
    match (d.checkUids.run.run messages).1 with
    | .ok _ => d.Distinct
    | .error e => ∃ uid, uid ≠ "" ∧ e = .uidNotUnique uid ∧
        ∃ a b, a ≠ b ∧ d.Bears a uid ∧ d.Bears b uid := by
  have judged : Judges (fun uid => (d.uids.map (·.1)).count uid) (d.checkUids.run.run messages).1 :=
    @judges_checkDistinct false [] _ (fun _ => Nat.zero_le 1) messages
  generalize (d.checkUids.run.run messages).1 = result at judged ⊢
  cases result with
  | ok => exact fun a b uid filled => made.count_uids.mp (judged uid filled) a b
  | error e =>
    obtain ⟨uid, filled, cause, often⟩ := judged
    refine ⟨uid, filled, cause, ?_⟩
    by_contra alone
    refine Nat.not_le_of_gt often (made.count_uids.mpr fun a b ha hb => ?_)
    by_contra ne
    exact alone ⟨a, b, ne, ha, hb⟩

end Document

end XmlStore
