import Scion.Derivation.Revision
import Scion.Proofs.Path.Order
import Scion.Proofs.Tree.Relabelling

/-!
Walking through a tree and finding nodes in it. A walk that keeps the pending subtrees on a stack
meets all subtrees in preorder; they are what the addresses of the tree lead to, in increasing order
of the addresses. A search that keeps one path, and steps back on it where nothing is found, ends at
the least address of a node that passes the test. So both ways of looking for an identity lead to
the same node, even where several nodes have it.
-/

namespace Scion.Tree

variable {α : Type}

/-! ### Walking with a stack -/

/-- Puts trees on a stack, the last of them first. -/
def push (cs stack : List (Tree α)) : List (Tree α) :=
  cs.reverse.foldl (fun stack c => c :: stack) stack

theorem push_eq_append (cs stack : List (Tree α)) : push cs stack = cs ++ stack := by
  simp [push]

theorem size_eq (t : Tree α) : t.size = sizeAll t.children + 1 := by
  cases t <;> rfl

/-- Takes the top off the stack and pushes its children, until the stack is empty. -/
def walk : List (Tree α) → List (Tree α)
  | [] => []
  | t :: stack => t :: walk (push t.children stack)
termination_by stack => sizeAll stack
decreasing_by
  rw [push_eq_append, sizeAll_append, sizeAll, size_eq]
  omega

theorem walk_eq_flatMap (stack : List (Tree α)) : walk stack = stack.flatMap preorder := by
  fun_induction walk stack with
  | case1 => rfl
  | case2 t stack ih =>
    rw [ih, push_eq_append, List.flatMap_append, List.flatMap_cons, preorder_eq_cons t,
      List.cons_append]

theorem walk_singleton (t : Tree α) : walk [t] = t.preorder := by
  rw [walk_eq_flatMap, List.flatMap_singleton]

/-! ### Addresses in preorder -/

mutual

/-- The addresses of all subtrees, each before those below it. -/
def addresses : Tree α → List (List Nat)
  | hole _ => [[]]
  | node _ cs => [] :: addressesAmong 0 cs

def addressesAmong (index : Nat) : List (Tree α) → List (List Nat)
  | [] => []
  | c :: cs => (addresses c).map (index :: ·) ++ addressesAmong (index + 1) cs

end

theorem addresses_eq_cons (t : Tree α) : t.addresses = [] :: addressesAmong 0 t.children := by
  cases t <;> rfl

theorem mem_addressesAmong {cs : List (Tree α)} {k : Nat} {p : List Nat} :
    p ∈ addressesAmong k cs ↔
      ∃ i rest c, p = (k + i) :: rest ∧ cs[i]? = some c ∧ rest ∈ c.addresses := by
  induction cs generalizing k with
  | nil => simp [addressesAmong]
  | cons c cs ih =>
    rw [addressesAmong, List.mem_append, List.mem_map, ih]
    constructor
    · rintro (⟨rest, hrest, rfl⟩ | ⟨i, rest, d, rfl, hd, hrest⟩)
      · exact ⟨0, rest, c, rfl, rfl, hrest⟩
      · exact ⟨i + 1, rest, d, by rw [Nat.add_assoc, Nat.add_comm 1], hd, hrest⟩
    · rintro ⟨i, rest, d, rfl, hd, hrest⟩
      cases i with
      | zero => exact .inl ⟨rest, Option.some.inj hd ▸ hrest, rfl⟩
      | succ i => exact .inr ⟨i, rest, d, by rw [Nat.add_assoc, Nat.add_comm 1], hd, hrest⟩

theorem mem_addresses {t : Tree α} {p : List Nat} (depth : Nat) :
    p ∈ t.addresses ↔ ∃ s, t.descend depth p = .ok s := by
  induction p generalizing t depth with
  | nil => simp [addresses_eq_cons]
  | cons i p ih =>
    rw [addresses_eq_cons, List.mem_cons, mem_addressesAmong]
    constructor
    · rintro (h | ⟨j, rest, c, h, hc, hrest⟩)
      · simp at h
      · obtain ⟨rfl, rfl⟩ := List.cons.inj h
        obtain ⟨s, hs⟩ := (ih (depth + 1)).1 hrest
        exact ⟨s, descend_cons_ok.2 ⟨c, by rwa [Nat.zero_add], hs⟩⟩
    · rintro ⟨s, hs⟩
      obtain ⟨c, hc, hs⟩ := descend_cons_ok.1 hs
      exact .inr ⟨i, p, c, by rw [Nat.zero_add], hc, (ih (depth + 1)).2 ⟨s, hs⟩⟩

/-- Preorder is the order of the addresses. -/
theorem addresses_sorted (t : Tree α) : t.addresses.Pairwise fun p q => compare p q = .lt := by
  induction t using Tree.inductionOn with
  | hole a => exact List.pairwise_singleton ..
  | node a cs ih =>
    have below : ∀ k, (addressesAmong k cs).Pairwise fun p q => compare p q = .lt := by
      induction cs with
      | nil => exact fun _ => .nil
      | cons c cs ihcs =>
        intro k
        rw [addressesAmong, List.pairwise_append, List.pairwise_map]
        refine ⟨?_, ihcs (fun d hd => ih d (List.mem_cons_of_mem _ hd)) (k + 1), ?_⟩
        · simpa only [Path.compare_cons_self] using ih c List.mem_cons_self
        · intro p hp q hq
          obtain ⟨p, -, rfl⟩ := List.mem_map.1 hp
          obtain ⟨i, q, -, rfl, -, -⟩ := mem_addressesAmong.1 hq
          exact Path.compare_cons_of_lt (by omega) p q
    refine List.pairwise_cons.2 ⟨fun p hp => ?_, below 0⟩
    obtain ⟨i, rest, -, rfl, -, -⟩ := mem_addressesAmong.1 hp
    exact List.compare_nil_cons

theorem descend_cons {t c : Tree α} {i : Nat} (h : t.children[i]? = some c) (depth : Nat)
    (path : List Nat) : t.descend depth (i :: path) = c.descend (depth + 1) path := by
  match t with
  | hole a => simp at h
  | node a [] => simp at h
  | node a (d :: ds) =>
    rw [children_node] at h
    simp [descend, h]

theorem getElem?_of_drop {cs ds : List (Tree α)} {d : Tree α} {k : Nat}
    (split : cs.drop k = d :: ds) : cs[k]? = some d ∧ cs.drop (k + 1) = ds := by
  constructor
  · rw [← List.head?_drop, split, List.head?_cons]
  · rw [← List.tail_drop, split, List.tail_cons]

/-- The addresses lead to the subtrees one by one. -/
theorem map_descend_addresses (t : Tree α) (depth : Nat) :
    t.addresses.map (t.descend depth) = t.preorder.map .ok := by
  induction t using Tree.inductionOn generalizing depth with
  | hole a => rfl
  | node a cs ih =>
    -- The children behind the first `k` are reached from the node by indices that start at `k`.
    have below : ∀ ds k, cs.drop k = ds →
        (addressesAmong k ds).map ((node a cs).descend depth) = (ds.flatMap preorder).map .ok := by
      intro ds
      induction ds with
      | nil => exact fun _ _ => rfl
      | cons d ds ihds =>
        intro k split
        obtain ⟨hd, later⟩ := getElem?_of_drop split
        have first : ((node a cs).descend depth ∘ fun path => k :: path) = d.descend (depth + 1) :=
          funext fun path => descend_cons hd depth path
        rw [addressesAmong, List.map_append, List.map_map, first,
          ih d (List.mem_of_getElem? hd), ihds (k + 1) later, List.flatMap_cons, List.map_append]
    rw [addresses_eq_cons, preorder_eq_cons, List.map_cons, List.map_cons, children_node,
      below cs 0 rfl]
    rfl

/-! ### Finding with one path -/

mutual

/-- The search that changes one path: the index of a child is put on it before the child is
searched, and taken off again when nothing was found there. The innermost index is the first. -/
def seek (test : α → Bool) (path : List Nat) : Tree α → Bool × List Nat
  | hole a => (test a, path)
  | node a cs => if test a then (true, path) else seekAmong test path 0 cs

def seekAmong (test : α → Bool) (path : List Nat) (index : Nat) : List (Tree α) → Bool × List Nat
  | [] => (false, path)
  | c :: cs =>
    let (found, path) := seek test (index :: path) c
    if found then (true, path) else seekAmong test path.tail (index + 1) cs

end

/-- What the search has done to its path, given what it has found below. -/
def sought (path : List Nat) : Option (List Nat) → Bool × List Nat
  | some found => (true, found.reverse ++ path)
  | none => (false, path)

theorem seekAmong_cons (test : α → Bool) (path : List Nat) (index : Nat) (c : Tree α)
    (cs : List (Tree α)) :
    seekAmong test path index (c :: cs) =
      if (seek test (index :: path) c).1 then (true, (seek test (index :: path) c).2)
      else seekAmong test (seek test (index :: path) c).2.tail (index + 1) cs := by
  rw [seekAmong]

theorem seek_eq_sought (test : α → Bool) (path : List Nat) (t : Tree α) :
    seek test path t = sought path (t.findPath? test) := by
  induction t using Tree.inductionOn generalizing path with
  | hole a => cases h : test a <;> simp [seek, findPath?, sought, h]
  | node a cs ih =>
    have among : ∀ k, seekAmong test path k cs = sought path (findPathAmong? test k cs) := by
      induction cs with
      | nil => exact fun _ => rfl
      | cons c cs ihcs =>
        intro k
        have first := ih c List.mem_cons_self (k :: path)
        have later := ihcs (fun d hd => ih d (List.mem_cons_of_mem _ hd)) (k + 1)
        rw [seekAmong_cons, first, findPathAmong?]
        cases c.findPath? test with
        | none => exact later
        | some found => simp [sought]
    rw [seek, findPath?, among 0]
    cases test a <;> rfl

/-! ### Finding the least address -/

/-- No address of a node that passes the test comes before the one that is found. -/
theorem findPath?_least {test : α → Bool} {t s : Tree α} {depth : Nat} {p q : List Nat}
    (found : t.findPath? test = some p) (hq : t.descend depth q = .ok s) (passes : test s.label) :
    p = q ∨ compare p q = .lt := by
  induction t using Tree.inductionOn generalizing p q depth with
  | hole a =>
    cases q with
    | nil =>
      cases hq
      have here : test a := passes
      rw [findPath?, if_pos here] at found
      exact .inl (Option.some.inj found).symm
    | cons j q => simp [descend] at hq
  | node a cs ih =>
    rw [findPath?] at found
    split at found
    · obtain rfl := Option.some.inj found
      cases q with
      | nil => exact .inl rfl
      | cons j q => exact .inr List.compare_nil_cons
    · rename_i fails
      obtain ⟨i, rest, c, rfl, hc, hrest, before⟩ := findPathAmong?_eq_some found
      rw [Nat.zero_add]
      cases q with
      | nil =>
        cases hq
        exact absurd passes fails
      | cons j q =>
        obtain ⟨d, hd, hs⟩ := descend_cons_ok.1 hq
        obtain left | rfl | right := Nat.lt_trichotomy j i
        · have earlier : d ∈ cs.take i :=
            List.mem_iff_getElem?.2 ⟨j, by rw [List.getElem?_take_of_lt left]; exact hd⟩
          exact absurd (before d earlier) (findPath?_ne_none (mem_preorder_of_descend hs) passes)
        · obtain rfl : c = d := Option.some.inj (hc.symm.trans hd)
          rw [Path.compare_cons_self, List.cons.injEq]
          exact (ih c (List.mem_of_getElem? hc) hrest hs).imp_left fun same => ⟨rfl, same⟩
        · exact .inr (Path.compare_cons_of_lt right rest q)

/-- The first node in preorder that passes is the node at the address that is found. -/
theorem find?_preorder (test : α → Bool) (t : Tree α) (depth : Nat) :
    t.preorder.find? (fun s => test s.label) =
      (t.findPath? test).bind fun path => (t.descend depth path).toOption := by
  cases found : t.findPath? test with
  | none =>
    refine List.find?_eq_none.2 fun s hs passes => ?_
    exact findPath?_ne_none hs passes found
  | some path =>
    obtain ⟨s, hs, first⟩ := exists_descend_of_findPath? found depth
    rw [first, Option.bind_some, hs]
    rfl

/-! ### Identities -/

variable {t s : DerivationTree} {i : NodeId} {p q : Path}

theorem toOption_subtreeAt (t : DerivationTree) (p : Path) :
    (t.subtreeAt p).toOption = (t.descend 0 p.toList).toOption := by
  rw [subtreeAt]
  cases t.descend 0 p.toList <;> rfl

theorem map_subtreeAt_addresses (t : DerivationTree) :
    (t.addresses.map Path.mk).map t.subtreeAt = t.preorder.map .ok := by
  have each := map_descend_addresses t 0
  rw [← List.forall₂_eq_eq_eq, List.forall₂_map_left_iff, List.forall₂_map_right_iff] at each ⊢
  rw [List.forall₂_map_left_iff]
  exact each.imp fun _ _ h => subtreeAt_eq_ok.2 h

theorem find?_eq_seek (t : DerivationTree) (i : NodeId) :
    t.find? i = if (seek (fun n => n.id == i) [] t).1 then
      some ⟨(seek (fun n => n.id == i) [] t).2.reverse⟩ else none := by
  rw [find?, seek_eq_sought]
  cases t.findPath? fun n => n.id == i <;> simp [sought]

theorem find?_least (found : t.find? i = some p) (hq : t.subtreeAt q = .ok s) (hi : s.id = i) :
    p = q ∨ compare p q = .lt := by
  obtain ⟨path, hp, rfl⟩ := Option.map_eq_some_iff.1 found
  exact (findPath?_least hp (subtreeAt_eq_ok.1 hq) (by simpa [id] using hi)).imp_left
    fun same => congrArg Path.mk same

theorem find?_eq_none_iff : t.find? i = none ↔ ∀ q s, t.subtreeAt q = .ok s → s.id ≠ i := by
  constructor
  · rintro missing q s hq rfl
    obtain ⟨p, r, found, -, -⟩ := exists_find? (mem_preorder_of_subtreeAt hq)
    simp [missing] at found
  · intro absent
    cases found : t.find? i with
    | none => rfl
    | some p =>
      obtain ⟨s, hs, first⟩ := get?_of_find? found
      exact absurd (by simpa using List.find?_some first) (absent p s hs)

theorem find?_eq_some_iff : t.find? i = some p ↔ (∃ s, t.subtreeAt p = .ok s ∧ s.id = i) ∧
    ∀ q s, t.subtreeAt q = .ok s → s.id = i → p = q ∨ compare p q = .lt := by
  constructor
  · intro found
    obtain ⟨s, hs, first⟩ := get?_of_find? found
    exact ⟨⟨s, hs, by simpa using List.find?_some first⟩, fun q r => find?_least found⟩
  · rintro ⟨⟨s, hs, hi⟩, least⟩
    cases found : t.find? i with
    | none => exact absurd hi (find?_eq_none_iff.1 found p s hs)
    | some q =>
      obtain ⟨r, hr, first⟩ := get?_of_find? found
      obtain rfl | before := least q r hr (by simpa using List.find?_some first)
      · rfl
      · obtain rfl | after := find?_least found hs hi
        · rfl
        · have apart : compare q.toList p.toList ≠ .lt := Std.OrientedCmp.not_lt_of_lt before
          exact absurd after apart

theorem get?_eq_bind (t : DerivationTree) (i : NodeId) :
    t.get? i = (t.find? i).bind fun p => (t.subtreeAt p).toOption := by
  rw [find?, Option.bind_map]
  simp only [Function.comp_def, toOption_subtreeAt]
  exact find?_preorder (fun n => n.id == i) t 0

theorem containsId_iff : t.containsId i ↔ i ∈ t.ids := by
  rw [containsId, Option.isSome_iff_exists]
  constructor
  · rintro ⟨p, found⟩
    obtain ⟨s, hs, first⟩ := get?_of_find? found
    have same : s.id = i := by simpa using List.find?_some first
    exact same ▸ id_mem_ids (mem_preorder_of_subtreeAt hs)
  · intro present
    obtain ⟨s, hs, rfl⟩ := List.mem_map.1 present
    obtain ⟨p, -, found, -⟩ := exists_find? hs
    exact ⟨p, found⟩

theorem find?_of_distinct (distinct : t.ids.Nodup) (h : t.subtreeAt p = .ok s) :
    t.find? s.id = some p := by
  obtain ⟨q, found, hq⟩ := exists_find?_self distinct (mem_preorder_of_subtreeAt h)
  have same : p.toList = q.toList :=
    descend_injective distinct (subtreeAt_eq_ok.1 h) (subtreeAt_eq_ok.1 hq) rfl
  exact found.trans (congrArg (some ∘ Path.mk) same.symm)

/-- Looking for an identity in a tree with stamps. -/
theorem find?_walk_revised (r : RevisedTree) (i : NodeId) :
    (walk [r]).find? (fun s => s.label.node.id == i) =
      (r.plain.find? i).bind fun p => (r.subtreeAt p).toOption := by
  have same : r.plain.findPath? (fun n => n.id == i) = r.findPath? fun n => n.node.id == i :=
    findPath?_map fun _ _ => rfl
  have descends (p : Path) : (r.subtreeAt p).toOption = (r.descend 0 p.toList).toOption := by
    rw [RevisedTree.subtreeAt]
    cases r.descend 0 p.toList <;> rfl
  rw [walk_singleton, find?, same, Option.bind_map]
  simp only [Function.comp_def, descends]
  exact find?_preorder (fun n => n.node.id == i) r 0

/-- The walk with a stack lists what the addresses of the tree lead to, each address once and in
increasing order. The search with one path ends at the least address of a node with the identity,
and the first node of the walk with the identity is the node there, down to its stamp. -/
theorem walk_agrees (t : DerivationTree) :
    (∃ paths : List Path, (paths.Pairwise fun p q => compare p q = .lt) ∧
        (∀ p, p ∈ paths ↔ ∃ s, t.subtreeAt p = .ok s) ∧
        paths.map t.subtreeAt = (walk [t]).map .ok) ∧
      t.preorder = walk [t] ∧
      (∀ i, t.find? i = if (seek (fun n => n.id == i) [] t).1 then
        some ⟨(seek (fun n => n.id == i) [] t).2.reverse⟩ else none) ∧
      (∀ i p, t.find? i = some p ↔ (∃ s, t.subtreeAt p = .ok s ∧ s.id = i) ∧
        ∀ q s, t.subtreeAt q = .ok s → s.id = i → p = q ∨ compare p q = .lt) ∧
      (∀ i, t.find? i = none ↔ ∀ q s, t.subtreeAt q = .ok s → s.id ≠ i) ∧
      (∀ i, t.get? i = (t.find? i).bind fun p => (t.subtreeAt p).toOption) ∧
      (∀ r : RevisedTree, r.plain = t → ∀ i, (walk [r]).find? (fun s => s.label.node.id == i) =
        (t.find? i).bind fun p => (r.subtreeAt p).toOption) ∧
      (∀ i, t.containsId i ↔ i ∈ t.ids) ∧
      (t.ids.Nodup → ∀ p s, t.subtreeAt p = .ok s → t.find? s.id = some p) := by
  refine ⟨⟨t.addresses.map Path.mk, ?_, fun p => ?_, ?_⟩, (walk_singleton t).symm, find?_eq_seek t,
    fun i p => find?_eq_some_iff, fun i => find?_eq_none_iff, get?_eq_bind t, ?_,
    fun i => containsId_iff, fun distinct p s => find?_of_distinct distinct⟩
  · exact List.pairwise_map.2 (addresses_sorted t)
  · simp only [subtreeAt_eq_ok, ← mem_addresses 0, List.mem_map]
    exact ⟨fun ⟨path, hpath, same⟩ => same ▸ hpath, fun h => ⟨p.toList, h, rfl⟩⟩
  · rw [walk_singleton, map_subtreeAt_addresses]
  · rintro r rfl i
    exact find?_walk_revised r i

end Scion.Tree
