import Scion.Proofs.Graft.Legality
import Scion.Proofs.Tree.Yield

/-!
Grafting only adds text. A wrapper has the text of the tree inside of it, and a host those of the
node in its place and of the inserted tree, apart from each other. So the text of a candidate is
that of the target with one text put in before and one behind some part of it, and one of the two
contains the inserted text. A candidate is therefore never too short and never lacks this text:
if it is not valid, a word of the target has been cut.
-/

namespace Scion

theorem Wrapped.infix_text {first last : NodeId} {origin t : DerivationTree}
    (h : Wrapped first origin last t) : origin.text.toList <:+: t.text.toList := by
  induction h with
  | bare => exact List.infix_rfl
  | @wrap last id symbol t l r _ _ _ ih => exact ih.trans (Tree.infix_render_of_mem (by simp))

/-- A graft puts one text before and one behind the node in whose place it is. -/
theorem LegalGraft.text_around {g : Grammar} {first : NodeId} {target n w t : DerivationTree}
    {p : Path} (h : LegalGraft g first target p n w t) (hn : target.subtreeAt p = .ok n) :
    ∃ left right before behind : String, target.text = left ++ n.text ++ right ∧
      t.text = left ++ before ++ n.text ++ behind ++ right ∧
      (w.text.toList <:+: before.toList ∨ w.text.toList <:+: behind.toList) := by
  obtain ⟨left, right, here, there⟩ := Tree.render_around false hn
  cases h with
  | fill hopen _ ht =>
    have nothing : n.text = "" := by
      cases n with
      | hole a => rfl
      | node a cs => simp [Tree.isOpen] at hopen
    refine ⟨left, right, w.text, "", here, ?_, .inl List.infix_rfl⟩
    rw [Tree.text, there _ _ ht, nothing, String.append_empty, String.append_empty]
    rfl
  | @host id cs i j _ _ differ hi hj ht =>
    obtain ⟨before, behind, split, beside⟩ := Tree.renderAll_beside false differ hi hj
    have inner : (Tree.node ⟨id, n.symbol⟩ cs : DerivationTree).children ≠ [] :=
      List.ne_nil_of_mem (List.mem_of_getElem? hi)
    refine ⟨left, right, before, behind, here, ?_, beside⟩
    rw [Tree.text, there _ _ ht, Tree.render_of_children false inner, Tree.children_node, split]
    simp only [String.append_assoc]
    rfl

theorem Text.utf8ByteSize_le_of_infix {s t : String} (h : s.toList <:+: t.toList) :
    s.utf8ByteSize ≤ t.utf8ByteSize := by
  obtain ⟨before, after, split⟩ := h
  have whole : t = String.ofList before ++ s ++ String.ofList after := by
    apply String.toList_injective
    simp [← split]
  rw [whole, String.utf8ByteSize_append, String.utf8ByteSize_append]
  omega

/-- A text that is long enough and has the inserted text in it lacks a word, if anything. -/
theorem Validity.judge_error {v : Validity} {text : String} {reason : Rejection}
    (long : v.required ≤ text.utf8ByteSize) (found : v.insertText.toList <:+: text.toList)
    (h : v.judge text = .error reason) : ∃ token, reason = .missingToken token := by
  rw [judge] at h
  split at h
  · exact ⟨_, (Except.error.inj h).symm⟩
  · rw [if_neg (Nat.not_lt.2 long), if_pos (Text.occursIn_iff.2 found)] at h
    simp at h

/-- With two texts put into that of the target, one of which has the inserted text, a text is long
enough and has it too. -/
theorem Validity.measured_of_added {target insert : DerivationTree} {text u v w a b : String}
    (ht : target.text = u ++ v ++ w) (hx : text = u ++ a ++ v ++ b ++ w)
    (inserted : insert.text.toList <:+: a.toList ∨ insert.text.toList <:+: b.toList) :
    (ofTrees target insert).required ≤ text.utf8ByteSize ∧
      insert.text.toList <:+: text.toList := by
  constructor
  · have added : insert.text.utf8ByteSize ≤ a.utf8ByteSize + b.utf8ByteSize := by
      obtain before | behind := inserted
      · exact Nat.le_add_right_of_le (Text.utf8ByteSize_le_of_infix before)
      · exact Nat.le_add_left_of_le (Text.utf8ByteSize_le_of_infix behind)
    simp only [required, ofTrees, ht, hx, String.utf8ByteSize_append]
    omega
  · rw [hx]
    simp only [String.toList_append]
    obtain before | behind := inserted
    · exact before.trans ⟨u.toList, v.toList ++ b.toList ++ w.toList, by simp⟩
    · exact behind.trans ⟨u.toList ++ a.toList ++ v.toList, w.toList, by simp⟩

theorem Validity.judge_error_of_added {target insert : DerivationTree} {text u v w a b : String}
    {reason : Rejection} (ht : target.text = u ++ v ++ w) (hx : text = u ++ a ++ v ++ b ++ w)
    (inserted : insert.text.toList <:+: a.toList ∨ insert.text.toList <:+: b.toList)
    (h : (ofTrees target insert).judge text = .error reason) :
    ∃ token, reason = .missingToken token :=
  have measured := measured_of_added ht hx inserted
  judge_error measured.1 measured.2 h

theorem GraftRun.judge_error {run : GraftRun} {t : DerivationTree} {reason : Rejection}
    (h : run.judge t = .error reason) :
    run.validity.judge t.text = .error reason ∨ reason = .misplaced := by
  rw [judge] at h
  split at h
  · rename_i e he
    obtain rfl := Except.error.inj h
    split at he
    · exact .inl he
    · simp at he
  · split at h
    · simp at h
    · split at h
      · simp at h
      · exact .inr (Except.error.inj h).symm

namespace GraftRequest

variable {request : GraftRequest} {next : NodeId} {run : GraftRun} {t : DerivationTree}

theorem Reaches.text_around (distinct : request.target.ids.Nodup) (h : request.Reaches next run)
    (submitted : run.submission? = some t) :
    ∃ u v w a b : String, request.target.text = u ++ v ++ w ∧ t.text = u ++ a ++ v ++ b ++ w ∧
      (request.insert.text.toList <:+: a.toList ∨ request.insert.text.toList <:+: b.toList) := by
  obtain ⟨p, n, hn, graft⟩ := h.graftAt distinct submitted
  obtain ⟨last, -, wrapped⟩ := h.wrapped run.search.insert List.mem_cons_self
  obtain ⟨u, w, a, b, target, candidate, inserted⟩ := graft.legalGraft.text_around hn
  exact ⟨u, n.text, w, a, b, target, candidate,
    inserted.imp wrapped.infix_text.trans wrapped.infix_text.trans⟩

/-- The text of every candidate is the text of the target with two texts put in, one of which
contains the text of the original inserted tree; and the only fault that is ever found in it, beside
its placement, is a missing word. -/
theorem submission_text (distinct : request.target.ids.Nodup) (h : request.Reaches next run)
    (submitted : run.submission? = some t) :
    (∃ u v w a b : String, request.target.text = u ++ v ++ w ∧ t.text = u ++ a ++ v ++ b ++ w ∧
      (request.insert.text.toList <:+: a.toList ∨ request.insert.text.toList <:+: b.toList)) ∧
      (∀ reason, (Validity.ofTrees request.target request.insert).judge t.text = .error reason →
        ∃ token, reason = .missingToken token) ∧
      ∀ reason, run.judge t = .error reason →
        (∃ token, reason = .missingToken token) ∨ reason = .misplaced := by
  obtain ⟨u, v, w, a, b, target, candidate, inserted⟩ := h.text_around distinct submitted
  refine ⟨⟨u, v, w, a, b, target, candidate, inserted⟩, fun reason faulty => ?_,
    fun reason rejected => ?_⟩
  · exact Validity.judge_error_of_added target candidate inserted faulty
  · refine (GraftRun.judge_error rejected).imp (fun faulty => ?_) id
    rw [h.terms_eq.2.1] at faulty
    exact Validity.judge_error_of_added target candidate inserted faulty

end GraftRequest

namespace CommaList

/-- The text `b , a` of the first candidate is `a` behind the new item and the comma. -/
theorem submission_text_double :
    single.ids.Nodup ∧ ((request.start 6).after 3).submission? = some double ∧
      (∃ u v w a b : String, single.text = u ++ v ++ w ∧ double.text = u ++ a ++ v ++ b ++ w ∧
        (request.insert.text.toList <:+: a.toList ∨ request.insert.text.toList <:+: b.toList)) ∧
      (∀ reason, (Validity.ofTrees single request.insert).judge double.text = .error reason →
        ∃ token, reason = .missingToken token) ∧
      ∀ reason, ((request.start 6).after 3).judge double = .error reason →
        (∃ token, reason = .missingToken token) ∨ reason = .misplaced := by
  have distinct : request.target.ids.Nodup := by decide
  have reached : request.Reaches 6 ((request.start 6).after 3) :=
    GraftRequest.reaches_after .start 3
  exact ⟨distinct, rfl, GraftRequest.submission_text distinct reached rfl⟩

end CommaList

end Scion
