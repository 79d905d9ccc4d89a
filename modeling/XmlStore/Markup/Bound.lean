/-
Content has no more nodes than characters, so the bound under which it is
read is never met: `readContent_eq` reads a node, its content and its later
siblings without one.
-/
import XmlStore.Markup.Read

namespace XmlStore

/-- A reader of content that never goes back. -/
def ContentReader.Proceeds (content : ContentReader) : Prop :=
  ∀ ⦃depth scope started p forest q⦄, content depth scope started p = .ok (forest, q) →
    q.cursor.remaining ≤ p.cursor.remaining

theorem Progress.read_eq_ok {α : Type} {p q : Progress}
    {reader : Cursor → Except Fault (α × Cursor)} {a : α} (h : p.read reader = .ok (a, q)) :
    reader p.cursor = .ok (a, q.cursor) := by
  unfold read at h
  split at h <;> grind

theorem Progress.move_eq_ok {p q : Progress} {reader : Cursor → Except Fault Cursor}
    (h : p.move reader = .ok q) : reader p.cursor = .ok q.cursor := by
  unfold move at h
  split at h <;> grind

theorem Cursor.remaining_readText_lt {c d : Cursor} {text : String}
    (hb : c.beginning = .characters) (h : c.readText = .ok (text, d)) :
    d.remaining < c.remaining := by
  unfold readText readUntil at h
  obtain ⟨⟨taken, e⟩, hwhile, h⟩ := bind_eq_ok.1 h
  cases h
  rw [readWhile_eq] at hwhile
  have more : (!(c.atEnd || c.sees ['<'])) = true := by
    unfold beginning at hb
    repeat (split at hb; · cases hb)
    simp_all
  rw [if_pos more] at hwhile
  obtain ⟨⟨first, f⟩, hfirst, hrest⟩ := bind_eq_ok.1 hwhile
  have := advances_collect advances_readTextChar _ hfirst
  have := remaining_readWhile_le hrest
  omega

theorem remaining_readElement_lt {options : ReadOptions} {depth : Nat} {scope : Scope}
    {p q : Progress} {content : Scope → Progress → Except ReadError (Forest Content × Progress)}
    {tag : Element} {children : Forest Content}
    (proceeds : ∀ scope p forest q, content scope p = .ok (forest, q) →
      q.cursor.remaining ≤ p.cursor.remaining)
    (h : readElement options depth scope p content = .ok ((tag, children), q)) :
    q.cursor.remaining < p.cursor.remaining := by
  unfold readElement at h
  split at h
  · cases h
  · obtain ⟨⟨written, q₁⟩, htag, h⟩ := bind_eq_ok.1 h
    have := Cursor.advances_readTag (Progress.read_eq_ok htag)
    dsimp only at h
    split at h
    · have := q₁.cursor.remaining_skip 2
      cases h
      show (q₁.cursor.skip 2).remaining < _
      omega
    · obtain ⟨q₂, hclose, h⟩ := bind_eq_ok.1 h
      have := Cursor.remaining_expect (Progress.move_eq_ok hclose)
      obtain ⟨⟨forest, q₃⟩, hcontent, h⟩ := bind_eq_ok.1 h
      have := proceeds _ _ _ _ hcontent
      obtain ⟨q₄, hend, h⟩ := bind_eq_ok.1 h
      have := Cursor.remaining_readEndTag_lt (Progress.move_eq_ok hend)
      cases h
      dsimp only at *
      omega

theorem readElement_congr {options : ReadOptions} {depth : Nat} {scope : Scope} {p : Progress}
    {content other : Scope → Progress → Except ReadError (Forest Content × Progress)}
    (h : ∀ scope q, q.cursor.remaining < p.cursor.remaining → content scope q = other scope q) :
    readElement options depth scope p content = readElement options depth scope p other := by
  unfold readElement
  split
  · rfl
  · refine bind_congr_ok fun ⟨tag, q⟩ htag => ?_
    have := Cursor.advances_readTag (Progress.read_eq_ok htag)
    dsimp only
    split
    · rfl
    · refine bind_congr_ok fun q₂ hclose => ?_
      have := Cursor.remaining_expect (Progress.move_eq_ok hclose)
      rw [h]
      dsimp only at this
      omega

/-- Reading goes on behind the node it has read, so only there does it matter how. -/
theorem readContentBy_congr {options : ReadOptions} {content other : ContentReader}
    (proceeds : content.Proceeds) {p : Progress}
    (h : ∀ depth scope started q, q.cursor.remaining < p.cursor.remaining →
      content depth scope started q = other depth scope started q)
    (depth : Nat) (scope : Scope) (started : Bool) :
    readContentBy options content depth scope started p =
      readContentBy options other depth scope started p := by
  unfold readContentBy
  split
  · rfl
  · rfl
  · refine bind_congr_ok fun ⟨node, q⟩ hread => ?_
    have := Cursor.advances_readCdata (Progress.read_eq_ok hread)
    simp only [h _ _ _ _ this]
  · refine bind_congr_ok fun ⟨node, q⟩ hread => ?_
    have := Cursor.advances_readAside (Progress.read_eq_ok hread)
    simp only [h _ _ _ _ this]
  · rw [← readElement_congr fun scope q hq => h (depth + 1) scope false q hq]
    refine bind_congr_ok fun ⟨⟨tag, children⟩, q⟩ hread => ?_
    have := remaining_readElement_lt (fun _ _ _ _ hcontent => proceeds hcontent) hread
    simp only [h _ _ _ _ this]
  · rename_i hb
    refine bind_congr_ok fun ⟨text, q⟩ hread => ?_
    have := Cursor.remaining_readText_lt hb (Progress.read_eq_ok hread)
    simp only [h _ _ _ _ this]

theorem readContentBy_proceeds {options : ReadOptions} {content : ContentReader}
    (proceeds : content.Proceeds) : (readContentBy options content).Proceeds := by
  intro depth scope started p forest q h
  unfold readContentBy at h
  split at h
  · cases h
  · cases h
    exact Nat.le_refl _
  · obtain ⟨⟨node, q₁⟩, hread, h⟩ := bind_eq_ok.1 h
    have := Cursor.advances_readCdata (Progress.read_eq_ok hread)
    obtain ⟨⟨rest, q₂⟩, hrest, h⟩ := bind_eq_ok.1 h
    have := proceeds hrest
    cases h
    omega
  · obtain ⟨⟨node, q₁⟩, hread, h⟩ := bind_eq_ok.1 h
    have := Cursor.advances_readAside (Progress.read_eq_ok hread)
    obtain ⟨⟨rest, q₂⟩, hrest, h⟩ := bind_eq_ok.1 h
    have := proceeds hrest
    cases h
    omega
  · obtain ⟨⟨⟨tag, children⟩, q₁⟩, hread, h⟩ := bind_eq_ok.1 h
    have := remaining_readElement_lt (fun _ _ _ _ hcontent => proceeds hcontent) hread
    obtain ⟨⟨rest, q₂⟩, hrest, h⟩ := bind_eq_ok.1 h
    have := proceeds hrest
    cases h
    omega
  · rename_i hb
    obtain ⟨⟨text, q₁⟩, hread, h⟩ := bind_eq_ok.1 h
    have := Cursor.remaining_readText_lt hb (Progress.read_eq_ok hread)
    dsimp only at h
    split at h
    · have := proceeds h
      omega
    · obtain ⟨⟨rest, q₂⟩, hrest, h⟩ := bind_eq_ok.1 h
      have := proceeds hrest
      cases h
      dsimp only
      omega

theorem readContentWithin_proceeds (options : ReadOptions) (size : Nat) :
    (readContentWithin options size).Proceeds := by
  induction size with
  | zero => intro depth scope started p forest q h; cases h
  | succ size ih => exact readContentBy_proceeds ih

/-- A bound beyond the number of characters to come makes no difference. -/
theorem readContentWithin_congr {options : ReadOptions} {m n : Nat} {p : Progress}
    (hm : p.cursor.remaining < m) (hn : p.cursor.remaining < n)
    (depth : Nat) (scope : Scope) (started : Bool) :
    readContentWithin options m depth scope started p =
      readContentWithin options n depth scope started p := by
  induction m generalizing n p depth scope started with
  | zero => omega
  | succ m ih =>
    cases n with
    | zero => omega
    | succ n =>
      refine readContentBy_congr (readContentWithin_proceeds options m) ?_ depth scope started
      exact fun depth scope started q hq => ih (by omega) (by omega) depth scope started

theorem readContent_proceeds (options : ReadOptions) : (readContent options).Proceeds :=
  fun _ _ _ _ _ _ h => readContentWithin_proceeds options _ h

/-- Content is read node by node, each with its own content and its later siblings. -/
theorem readContent_eq (options : ReadOptions) :
    readContent options = readContentBy options (readContent options) := by
  funext depth scope started p
  refine readContentBy_congr (readContentWithin_proceeds options _) ?_ depth scope started
  exact fun depth scope started q hq =>
    readContentWithin_congr hq (Nat.lt_succ_self _) depth scope started

end XmlStore
