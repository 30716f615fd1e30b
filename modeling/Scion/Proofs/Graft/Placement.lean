import Scion.Graft.Placement
import Scion.Proofs.Graft.Legality
import Scion.Proofs.Tree.Yield

/-!
What asking for a side of a reference node means for the tree. The reference has a text left of it
and one right of it, but a result is cut at the first place where its text occurs, which may lie
further to the left. So the left side is never taken for larger than it is, nor the right side for
smaller; when the first place is that of the node itself, both are exact.
-/

namespace Scion

namespace Tree

/-- The text of everything left of an address. -/
def textBefore (t : DerivationTree) (p : Path) : String := t.renderBefore false p.toList

/-- The text of everything right of an address. -/
def textAfter (t : DerivationTree) (p : Path) : String := t.renderAfter false p.toList

variable {t r s : DerivationTree} {p q : Path}

theorem text_of_subtreeAt (h : t.subtreeAt p = .ok r) :
    t.text = t.textBefore p ++ r.text ++ t.textAfter p :=
  render_of_descend (subtreeAt_eq_ok.1 h)

theorem toList_text_of_subtreeAt (h : t.subtreeAt p = .ok r) :
    (t.textBefore p).toList ++ r.text.toList ++ (t.textAfter p).toList = t.text.toList := by
  rw [text_of_subtreeAt h, String.toList_append, String.toList_append]

theorem infix_textAfter (right : q.isAfter p) (hp : t.subtreeAt p = .ok r)
    (hq : t.subtreeAt q = .ok s) : s.text.toList <:+: (t.textAfter p).toList :=
  infix_renderAfter ((Path.isAfter_eq q p).symm.trans right) (subtreeAt_eq_ok.1 hp)
    (subtreeAt_eq_ok.1 hq)

end Tree

namespace Placement

variable {t r : DerivationTree} {p : Path}

/-- The requested one of two sides. -/
def side (relation : Relation) (before after : List Char) : List Char :=
  match relation with
  | .before => before
  | .after => after

/-- A reference that is in the tree has its text in the text of the tree. -/
theorem exists_cut (hp : t.subtreeAt p = .ok r) :
    ∃ before after, Text.cut? r.text.toList t.text.toList = some (before, after) := by
  have occurs : Text.occursIn r.text.toList t.text.toList :=
    Text.occursIn_iff.2 ⟨_, _, Tree.toList_text_of_subtreeAt hp⟩
  obtain ⟨⟨before, after⟩, cut⟩ := Option.isSome_iff_exists.1 occurs
  exact ⟨before, after, cut⟩

theorem holds_iff (placement : Placement) (insertText : String) {before after : List Char}
    (found : t.get? placement.reference = some r)
    (cut : Text.cut? r.text.toList t.text.toList = some (before, after)) :
    placement.holds t insertText ↔ insertText.toList <:+: side placement.relation before after := by
  rw [holds, found]
  simp only [cut]
  cases placement.relation <;> exact Text.occursIn_iff

/-- The first occurrence is cut off at the node itself unless there is an earlier one. -/
theorem sides_of_first {before after : List Char} (hp : t.subtreeAt p = .ok r)
    (cut : Text.cut? r.text.toList t.text.toList = some (before, after))
    (first : ∀ left right : List Char, left ++ r.text.toList ++ right = t.text.toList →
      (t.textBefore p).toList.length ≤ left.length) :
    before = (t.textBefore p).toList ∧ after = (t.textAfter p).toList := by
  have whole := Tree.toList_text_of_subtreeAt hp
  obtain ⟨inside, -⟩ := Text.around_of_cut? cut whole
  have same : before = (t.textBefore p).toList :=
    inside.eq_of_length_le (first before after (Text.append_of_cut? cut))
  refine ⟨same, ?_⟩
  have both := (Text.append_of_cut? cut).trans whole.symm
  rw [same] at both
  exact List.append_cancel_left both

/-- How asking for a side of a reference relates to the texts beside the node `r` at `p`. -/
structure Spans (t : DerivationTree) (reference : NodeId) (insertText : String) (p : Path)
    (r : DerivationTree) : Prop where
  found : t.find? reference = some p
  here : t.subtreeAt p = .ok r
  same : t.get? reference = some r
  split : t.text = t.textBefore p ++ r.text ++ t.textAfter p
  occurs : (Text.cut? r.text.toList t.text.toList).isSome
  before_sound : Placement.holds ⟨.before, reference⟩ t insertText →
    insertText.toList <:+: (t.textBefore p).toList
  after_complete : insertText.toList <:+: (t.textAfter p).toList →
    Placement.holds ⟨.after, reference⟩ t insertText
  after_of_isAfter : ∀ q s, q.isAfter p → t.subtreeAt q = .ok s →
    insertText.toList <:+: s.text.toList → Placement.holds ⟨.after, reference⟩ t insertText
  exact_of_first : (∀ left right : List Char, left ++ r.text.toList ++ right = t.text.toList →
      (t.textBefore p).toList.length ≤ left.length) →
    (Placement.holds ⟨.before, reference⟩ t insertText ↔
      insertText.toList <:+: (t.textBefore p).toList) ∧
    (Placement.holds ⟨.after, reference⟩ t insertText ↔
      insertText.toList <:+: (t.textAfter p).toList)

/-- Whatever the tree and the text: beside a reference in the tree `before` never accepts wrongly,
`after` never rejects wrongly, and both are exact when the text of the reference occurs nowhere
earlier. -/
theorem holds_span {reference : NodeId} (present : reference ∈ t.ids) (insertText : String) :
    ∃ p r, Spans t reference insertText p r := by
  obtain ⟨s, hs, rfl⟩ := List.mem_map.1 present
  obtain ⟨p, -, hp, -⟩ := Tree.exists_find? hs
  obtain ⟨r, hr, found⟩ := Tree.get?_of_find? hp
  obtain ⟨before, after, cut⟩ := exists_cut hr
  obtain ⟨left, right⟩ := Text.around_of_cut? cut (Tree.toList_text_of_subtreeAt hr)
  have asksBefore := holds_iff ⟨.before, s.id⟩ insertText found cut
  have asksAfter := holds_iff ⟨.after, s.id⟩ insertText found cut
  have accepts (behind : insertText.toList <:+: (t.textAfter p).toList) :
      Placement.holds ⟨.after, s.id⟩ t insertText :=
    asksAfter.2 (behind.trans right.isInfix)
  refine ⟨p, r, hp, hr, found, Tree.text_of_subtreeAt hr, cut ▸ rfl, ?_, accepts, ?_, ?_⟩
  · exact fun held => (asksBefore.1 held).trans left.isInfix
  · exact fun q u later hu within => accepts (within.trans (Tree.infix_textAfter later hr hu))
  · intro first
    obtain ⟨rfl, rfl⟩ := sides_of_first hr cut first
    exact ⟨asksBefore, asksAfter⟩

/-- The item `b` beside the list of `a` in `b , a`. -/
theorem holds_span_double :
    3 ∈ CommaList.double.ids ∧ ∃ p r, Spans CommaList.double 3 "b" p r :=
  have present : 3 ∈ CommaList.double.ids := by decide
  ⟨present, holds_span present "b"⟩

/-- The text of an open reference is empty and is cut off in front of everything: nothing is before
it, wherever it stands. -/
example : Placement.holds ⟨.before, 2⟩ (.node ⟨3, ⟨"<s>"⟩⟩ [.leaf ⟨1, ⟨"b"⟩⟩, .hole ⟨2, ⟨"<i>"⟩⟩]) "b"
    = false := by decide

end Placement

end Scion
