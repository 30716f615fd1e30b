import Mathlib.Data.List.Induction
import Mathlib.Logic.Relation
import Scion.Proofs.Graft.Yield

/-!
What blanks protect. No word runs across a border at which one of the two characters is blank, so a
text put in between two such borders leaves the words around it as they are, and however many are
put in that way, no word is lost. A candidate that lacks a word of the target therefore has a text
put in without blanks around it.
-/

namespace Scion

namespace Text

variable {s t a : List Char}

/-- One of the two characters that meet is blank, if there are two. -/
def Apart (s t : List Char) : Prop := ∀ c ∈ s.getLast?, ∀ d ∈ t.head?, isBlank c ∨ isBlank d

instance : Decidable (Apart s t) :=
  decidable_of_iff (s.getLast?.all fun c => t.head?.all fun d => isBlank c || isBlank d)
    (by simp [Apart, Option.all_eq_true])

theorem words_append (h : Apart s t) : words (s ++ t) = words s ++ words t := by
  cases t with
  | nil => simp [words]
  | cons d t =>
    cases s using List.reverseRecOn with
    | nil => rfl
    | append_singleton s c =>
      obtain hc | hd := h c (by simp) d (by simp)
      · have ending : words (s ++ [c]) = words s :=
          (words_append_blank hc s []).trans (List.append_nil _)
        rw [List.append_assoc, List.singleton_append, words_append_blank hc, ending]
      · have leading : words (d :: t) = words t := words_append_blank hd [] t
        rw [words_append_blank hd, leading]

/-- The text `a` meets no word of the texts around it, nor did these meet before. -/
structure Separated (s a t : List Char) : Prop where
  around : Apart s t
  left : Apart s a
  right : Apart a t

instance : Decidable (Separated s a t) :=
  decidable_of_iff (Apart s t ∧ Apart s a ∧ Apart a t)
    ⟨fun h => ⟨h.1, h.2.1, h.2.2⟩, fun h => ⟨h.around, h.left, h.right⟩⟩

theorem Separated.words_subset (h : Separated s a t) : words (s ++ t) ⊆ words (s ++ a ++ t) := by
  cases a with
  | nil => simp
  | cons c a =>
    have right : Apart (s ++ c :: a) t := by
      intro d hd
      rw [List.getLast?_append_of_ne_nil _ (by simp)] at hd
      exact h.right d hd
    rw [words_append h.around, words_append right, words_append h.left]
    exact ((List.sublist_append_left ..).append_right _).subset

/-- One separated insertion. -/
inductive Spaced : String → String → Prop
  | insert (s a t : String) : a ≠ "" → Separated s.toList a.toList t.toList →
    Spaced (s ++ t) (s ++ a ++ t)

theorem spaced_insert {s a t : String}
    (h : a ≠ "" → Separated s.toList a.toList t.toList) :
    Relation.ReflTransGen Spaced (s ++ t) (s ++ a ++ t) := by
  by_cases ha : a = ""
  · rw [ha, String.append_empty]
  · exact .single (.insert s a t ha (h ha))

theorem words_subset_of_spaced {text text' : String} (h : Relation.ReflTransGen Spaced text text') :
    words text.toList ⊆ words text'.toList := by
  induction h with
  | refl => exact List.Subset.refl _
  | tail _ last ih =>
    obtain ⟨s, a, t, -, separated⟩ := last
    have kept : words (s ++ t).toList ⊆ words (s ++ a ++ t).toList := by
      simpa only [String.toList_append] using separated.words_subset
    exact List.Subset.trans ih kept

end Text

namespace Validity

/-- The three requirements on a text. -/
theorem judge_eq_ok_iff {v : Validity} {text : String} :
    v.judge text = .ok () ↔ v.words ⊆ Text.words text.toList ∧
      v.required ≤ text.utf8ByteSize ∧ v.insertText.toList <:+: text.toList := by
  rw [judge]
  split
  · rename_i word lost
    have absent : word ∉ Text.words text.toList := by simpa using List.find?_some lost
    exact iff_of_false (by simp) fun h => absent (h.1 (List.mem_of_find?_eq_some lost))
  · rename_i kept
    have all : v.words ⊆ Text.words text.toList := by
      intro word hword
      simpa using List.find?_eq_none.1 kept word hword
    rw [← Text.occursIn_iff]
    split
    · rename_i short
      exact iff_of_false (by simp) fun h => absurd short (Nat.not_lt.2 h.2.1)
    · rename_i long
      simp [all, Nat.not_lt.1 long]

/-- Separated insertions never lead to a rejection. -/
theorem judge_of_spaced {target insert : DerivationTree} {text : String}
    (spaced : Relation.ReflTransGen Text.Spaced target.text text)
    (found : insert.text.toList <:+: text.toList)
    (long : target.text.utf8ByteSize + insert.text.utf8ByteSize ≤ text.utf8ByteSize) :
    (ofTrees target insert).judge text = .ok () :=
  judge_eq_ok_iff.2 ⟨Text.words_subset_of_spaced spaced, long, found⟩

end Validity

namespace GraftRequest

/-- Whatever target, inserted tree and text: separated insertions are never rejected. Hence, when
the identities of the target differ, each candidate that the oracle of a run rejects is the text of
the target with two texts put in, and one of these two is not separated. -/
theorem rejected_unseparated (request : GraftRequest) :
    (∀ (target insert : DerivationTree) (text : String),
      Relation.ReflTransGen Text.Spaced target.text text →
      insert.text.toList <:+: text.toList →
      target.text.utf8ByteSize + insert.text.utf8ByteSize ≤ text.utf8ByteSize →
      (Validity.ofTrees target insert).judge text = .ok ()) ∧
    (request.target.ids.Nodup → ∀ next run t reason, request.Reaches next run →
      run.submission? = some t →
      (Validity.ofTrees request.target request.insert).judge t.text = .error reason →
      ∃ u v w a b : String, request.target.text = u ++ v ++ w ∧ t.text = u ++ a ++ v ++ b ++ w ∧
        ((b ≠ "" ∧ ¬ Text.Separated (u ++ v).toList b.toList w.toList) ∨
          (a ≠ "" ∧ ¬ Text.Separated u.toList a.toList (v ++ b ++ w).toList))) := by
  refine ⟨fun _ _ _ => Validity.judge_of_spaced, ?_⟩
  intro distinct next run t reason reached submitted rejected
  obtain ⟨u, v, w, a, b, target, candidate, inserted⟩ := reached.text_around distinct submitted
  refine ⟨u, v, w, a, b, target, candidate, ?_⟩
  by_contra separated
  rw [not_or, not_and_not_right, not_and_not_right] at separated
  obtain ⟨second, first⟩ := separated
  -- both insertions are separated or empty, so the candidate could not have been rejected
  have behind : Relation.ReflTransGen Text.Spaced (u ++ v ++ w) (u ++ v ++ b ++ w) :=
    Text.spaced_insert second
  have before : Relation.ReflTransGen Text.Spaced (u ++ v ++ b ++ w) (u ++ a ++ v ++ b ++ w) := by
    simpa only [String.append_assoc] using Text.spaced_insert first
  obtain ⟨long, found⟩ := Validity.measured_of_added target candidate inserted
  have spaced : Relation.ReflTransGen Text.Spaced request.target.text t.text := by
    rw [target, candidate]
    exact behind.trans before
  rw [Validity.judge_of_spaced spaced found long] at rejected
  cases rejected

end GraftRequest

/-! ### A list without blanks -/

namespace TightList

def rules : List Rule :=
  [⟨⟨"<list>"⟩, [[⟨"<item>"⟩], [⟨"<item>"⟩, ⟨","⟩, ⟨"<list>"⟩]]⟩,
    ⟨⟨"<item>"⟩, [[⟨"a"⟩], [⟨"b"⟩]]⟩]

def grammar : Grammar := ⟨rules, ParentIndex.ofRules rules, by decide, rfl⟩

def request : GraftRequest where
  grammar := grammar
  paths := (ProductionGraph.ofGrammar grammar).shortestPath?
  target := .node ⟨3, ⟨"<list>"⟩⟩ [.node ⟨2, ⟨"<item>"⟩⟩ [.leaf ⟨1, ⟨"a"⟩⟩]]
  insert := .node ⟨5, ⟨"<item>"⟩⟩ [.leaf ⟨4, ⟨"b"⟩⟩]

def double : DerivationTree :=
  .node ⟨7, ⟨"<list>"⟩⟩ [request.insert, .leaf ⟨6, ⟨","⟩⟩, request.target]

/-- In `b,a` the word `a` is lost, as the text `b,` has been put in front of it; in `b , a` it is
not. -/
theorem rejected_unseparated_double :
    (Validity.ofTrees request.target request.insert).judge "b , a" = .ok () ∧
      request.target.ids.Nodup ∧ (request.start 6).submission? = some double ∧
      (Validity.ofTrees request.target request.insert).judge double.text =
        .error (.missingToken "a") ∧
      ∃ u v w a b : String,
        request.target.text = u ++ v ++ w ∧ double.text = u ++ a ++ v ++ b ++ w ∧
        ((b ≠ "" ∧ ¬ Text.Separated (u ++ v).toList b.toList w.toList) ∨
          (a ≠ "" ∧ ¬ Text.Separated u.toList a.toList (v ++ b ++ w).toList)) := by
  have distinct : request.target.ids.Nodup := by decide
  have rejected : (Validity.ofTrees request.target request.insert).judge double.text =
      .error (.missingToken "a") := by rfl
  have spaced : Text.Spaced "a" "b , a" := .insert "" "b , " "a" (by decide) (by decide)
  have accepted := (GraftRequest.rejected_unseparated request).1 request.target request.insert
    "b , a" (.single spaced) ⟨[], " , a".toList, rfl⟩ (by decide)
  exact ⟨accepted, distinct, rfl, rejected,
    (GraftRequest.rejected_unseparated request).2 distinct 6 _ double _ .start rfl rejected⟩

end TightList

end Scion
