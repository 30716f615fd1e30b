import Scion.Derivation.Text
import Scion.Proofs.Json.Reader
import Scion.Proofs.Tree.Identity

/-!
Parse trees as texts. The texts that load to a tree are those that stand for its nested arrays, as
long as these do not nest more than 127 deep; the compact text of a tree is one of them.
-/

namespace Scion.ParseTree

open Json (Value)

variable {q : ParseTree} {v : Value} {text path : String} {files : Files}

theorem listToJson_eq_map (qs : List ParseTree) : listToJson qs = qs.map toJson := by
  induction qs with
  | nil => rfl
  | cons q qs ih => rw [listToJson, ih, List.map_cons]

@[simp] theorem toJson_node (s : Symbol) (qs : List ParseTree) :
    toJson (.node s qs) = .array [.string s.text, .array (qs.map toJson)] := by
  rw [toJson, listToJson_eq_map]

/-- A pair of a text and either null or an array of such pairs. -/
inductive IsNode : Value → Prop
  | hole (s : String) : IsNode (.array [.string s, .null])
  | node (s : String) {items : List Value} : (∀ v ∈ items, IsNode v) →
      IsNode (.array [.string s, .array items])

theorem isNode_toJson (q : ParseTree) : IsNode (toJson q) := by
  induction q using Tree.inductionOn with
  | hole s => exact .hole s.text
  | node s qs ih =>
    rw [toJson_node]
    refine .node s.text fun v hv => ?_
    obtain ⟨c, hc, rfl⟩ := List.mem_map.1 hv
    exact ih c hc

theorem IsNode.textual (h : IsNode v) : v.Textual := by
  induction h with
  | hole s => exact .array (by simp [Value.Textual.string, Value.Textual.null])
  | node s _ ih => exact .array (by simp [Value.Textual.string, Value.Textual.array ih])

theorem IsNode.unkeyed (h : IsNode v) : v.Unkeyed := by
  induction h with
  | hole s => exact .array (by simp [Value.Unkeyed.string, Value.Unkeyed.null])
  | node s _ ih => exact .array (by simp [Value.Unkeyed.string, Value.Unkeyed.array ih])

theorem ofJson?_toJson (q : ParseTree) : ofJson? (toJson q) = some q := by
  induction q using Tree.inductionOn with
  | hole s => rfl
  | node s qs ih =>
    have children : listOfJson? (qs.map toJson) = some qs := by
      induction qs with
      | nil => rfl
      | cons c qs later =>
        obtain ⟨first, ih⟩ := List.forall_mem_cons.1 ih
        rw [List.map_cons, listOfJson?, first, later ih]
    rw [toJson_node, ofJson?, children]
    rfl

theorem ofJson?_eq_some (h : ofJson? v = some q) :
    (∃ s, v = .array [.string s, .null] ∧ q = .hole ⟨s⟩) ∨
      ∃ s items qs, v = .array [.string s, .array items] ∧ listOfJson? items = some qs ∧
        q = .node ⟨s⟩ qs := by
  unfold ofJson? at h
  split at h
  · cases h
    exact .inl ⟨_, rfl, rfl⟩
  · obtain ⟨qs, read, rfl⟩ := Option.map_eq_some_iff.1 h
    exact .inr ⟨_, _, qs, rfl, read, rfl⟩
  · cases h

/-- Only the arrays of a tree are read as the tree. -/
theorem toJson_of_ofJson? (h : ofJson? v = some q) : toJson q = v := by
  induction q using Tree.inductionOn generalizing v with
  | hole s =>
    obtain ⟨s, rfl, ⟨⟩⟩ | ⟨s, items, qs, -, -, ⟨⟩⟩ := ofJson?_eq_some h
    rfl
  | node s qs ih =>
    obtain ⟨s, -, ⟨⟩⟩ | ⟨s, items, qs, rfl, read, ⟨⟩⟩ := ofJson?_eq_some h
    have children : qs.map toJson = items := by
      clear h
      induction items generalizing qs with
      | nil =>
        cases read
        rfl
      | cons v items later =>
        rw [listOfJson?] at read
        split at read
        · rename_i c cs first rest
          cases read
          obtain ⟨here, ih⟩ := List.forall_mem_cons.1 ih
          rw [List.map_cons, here first, later cs ih rest]
        · cases read
    rw [toJson_node, children]

/-! ### Loading -/

/-- A text loads to a tree when it stands for the arrays of the tree and they are not too deep. -/
theorem parse?_eq_some_iff :
    parse? text = some q ↔ (toJson q).Written text ∧ (toJson q).depth ≤ Json.Reader.maxDepth := by
  rw [← (isNode_toJson q).unkeyed.parse?_eq_some_iff, parse?, Option.bind_eq_some_iff]
  constructor
  · rintro ⟨v, parsed, read⟩
    rw [parsed, toJson_of_ofJson? read]
  · intro parsed
    exact ⟨toJson q, parsed, ofJson?_toJson q⟩

theorem written_toJson (q : ParseTree) : (toJson q).Written (toJson q).compact :=
  (isNode_toJson q).textual.written_compact

/-- A text that stands for the arrays of a tree stands for nothing else. -/
theorem eq_toJson_of_written (known : parse? text = some q) (h : v.Written text) : v = toJson q := by
  obtain ⟨written, fits⟩ := parse?_eq_some_iff.1 known
  have unkeyed := (isNode_toJson q).unkeyed
  have parsed := unkeyed.parse?_eq_some_iff.2 ⟨written, fits⟩
  rw [h.parse?] at parsed
  obtain ⟨-, settled⟩ := Option.ite_none_right_eq_some.1 parsed
  injection settled with settled
  rw [← settled] at unkeyed ⊢
  exact unkeyed.of_settled.settled.symm

theorem load_eq_ok_iff (stored : files path = some text) :
    load files path = .ok q ↔ parse? text = some q := by
  simp only [load, Files.read, stored]
  cases parse? text <;> simp

theorem load_of_parse?_eq_none (stored : files path = some text) (refused : parse? text = none) :
    load files path = .error ⟨["Failed to parse JSON tree from " ++ path], .malformed .json⟩ := by
  simp only [load, Files.read, stored, refused]

/-- A tree that is stored as its compact text comes back when its arrays nest at most 127 deep, and
with it every symbol and every open position; deeper arrays are refused. Whatever loads is a text for
nested pairs and nothing else, and storing it compactly leads back to it. -/
theorem load_exact (files : Files) (path : String) :
    (∀ t : DerivationTree, files path = some (toJson t.shape).compact →
      ((toJson t.shape).depth ≤ 127 → load files path = .ok t.shape ∧
        ∀ next, (t.shape.instantiate next).1.shape = t.shape) ∧
      (127 < (toJson t.shape).depth → load files path =
        .error ⟨["Failed to parse JSON tree from " ++ path], .malformed .json⟩)) ∧
    ∀ text q, files path = some text → load files path = .ok q →
      (∃ v, (∀ w : Value, w.Written text ↔ w = v) ∧ IsNode v) ∧
      ∀ files' path', files' path' = some (toJson q).compact → load files' path' = .ok q := by
  constructor
  · intro t stored
    constructor
    · intro fits
      have parsed := parse?_eq_some_iff.2 ⟨written_toJson t.shape, fits⟩
      exact ⟨(load_eq_ok_iff stored).2 parsed, Tree.shape_instantiate t.shape⟩
    · intro deep
      have refused : Value.parse? (toJson t.shape).compact = none := by
        rw [(written_toJson t.shape).parse?]
        exact if_neg (Nat.not_le.2 deep)
      exact load_of_parse?_eq_none stored (by rw [parse?, refused, Option.bind_none])
  · intro text q stored loaded
    have parsed := (load_eq_ok_iff stored).1 loaded
    obtain ⟨written, fits⟩ := parse?_eq_some_iff.1 parsed
    refine ⟨⟨toJson q, fun w => ⟨eq_toJson_of_written parsed, ?_⟩, isNode_toJson q⟩, ?_⟩
    · rintro rfl
      exact written
    · intro files' path' stored
      exact (load_eq_ok_iff stored).2 (parse?_eq_some_iff.2 ⟨written_toJson q, fits⟩)

end Scion.ParseTree
