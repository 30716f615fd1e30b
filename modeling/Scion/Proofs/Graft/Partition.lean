import Mathlib.Data.List.Basic
import Scion.Graft.Search
import Scion.Proofs.Graft.Walk
import Scion.Proofs.Path.Order

/-!
The region around a walk. A walk takes a trail of child indices; the branches that it queues stand
beside the trail, each under a node of the trail and none on the trail itself. So a node below the
start that only nonterminals separate from it is on the trail or below one queued branch. Subtrees
are told apart by their positions here: a tree may contain the same node more than once.
-/

namespace Scion.Walk

/-- The child indices that a walk takes: the first child with the next symbol, for as long as there
is one. -/
def trail : DerivationTree → List Symbol → List Nat
  | _, [] => []
  | t, expected :: rest =>
    let i := t.children.findIdx fun c => c.symbol = expected
    match t.children[i]? with
    | none => []
    | some next => i :: trail next rest

/-- The nonterminal children with their positions, without the child that a walk takes. -/
def branches (ts : List DerivationTree) (taken : Nat) : List (List Nat × DerivationTree) :=
  (ts.zipIdx.filter fun c => c.2 ≠ taken && c.1.symbol.isNonterminal).map fun c => ([c.2], c.1)

/-- A branch that stands under a node of the trail, but not on the trail. -/
structure Beside (t : DerivationTree) (depth : Nat) (trail p : List Nat) (n : DerivationTree) :
    Prop where
  under : ∃ above i, p = above ++ [i] ∧ above <+: trail
  off : ¬ p <+: trail
  found : t.descend depth p = .ok n
  nonterminal : n.symbol.isNonterminal

/-- Top-down, and from left to right among the children of one node. -/
def Sooner (p q : List Nat) : Prop :=
  p.length < q.length ∨ p.length = q.length ∧ Path.leftOf p q

/-! ### Branches of one node -/

section Branches

variable {ts left right : List DerivationTree} {next n : DerivationTree} {taken : Nat}
  {p q : List Nat}

theorem mem_branches :
    (p, n) ∈ branches ts taken ↔
      ∃ i, p = [i] ∧ i ≠ taken ∧ ts[i]? = some n ∧ n.symbol.isNonterminal := by
  simp only [branches, List.mem_map, List.mem_filter, Prod.exists, Prod.mk.injEq,
    List.mk_mem_zipIdx_iff_getElem?, Bool.and_eq_true, decide_eq_true_eq]
  constructor
  · rintro ⟨c, i, ⟨hc, differ, hn⟩, rfl, rfl⟩
    exact ⟨i, rfl, differ, hc, hn⟩
  · rintro ⟨i, rfl, differ, hc, hn⟩
    exact ⟨n, i, ⟨hc, differ, hn⟩, rfl, rfl⟩

theorem branches_sooner (ts : List DerivationTree) (taken : Nat) :
    (branches ts taken).Pairwise fun e f => Sooner e.1 f.1 := by
  have increasing : ts.zipIdx.Pairwise fun c d => c.2 < d.2 := by
    rw [← List.pairwise_map (R := (· < ·)), List.zipIdx_map_snd]
    exact List.pairwise_lt_range'
  refine List.pairwise_map.2 ((increasing.filter _).imp fun {c d} smaller => .inr ⟨rfl, ?_⟩)
  rw [Path.leftOf_cons_of_ne (Nat.ne_of_lt smaller)]
  exact decide_eq_true smaller

/-- Unless the child that is taken is among them, all nonterminals are kept. -/
theorem branches_nodes_apart (k : Nat) (ts : List DerivationTree)
    (apart : ∀ i, k ≤ i → i < k + ts.length → i ≠ taken) :
    ((ts.zipIdx k).filter fun c => c.2 ≠ taken && c.1.symbol.isNonterminal).map Prod.fst =
      sideBranches ts := by
  have other : (ts.zipIdx k).filter (fun c => c.2 ≠ taken && c.1.symbol.isNonterminal) =
      (ts.zipIdx k).filter ((fun t => t.symbol.isNonterminal) ∘ Prod.fst) := by
    apply List.filter_congr
    intro c hc
    have range := List.mem_zipIdx hc
    simp [apart c.2 range.1 (by omega)]
  rw [other, ← List.filter_map, List.zipIdx_map_fst, sideBranches]

theorem branches_nodes (ts : List DerivationTree) :
    (branches ts ts.length).map Prod.snd = sideBranches ts := by
  rw [branches, List.map_map]
  exact branches_nodes_apart 0 ts fun i _ hi => by omega

theorem branches_nodes_around (left : List DerivationTree) (next : DerivationTree)
    (right : List DerivationTree) :
    (branches (left ++ next :: right) left.length).map Prod.snd =
      sideBranches (left ++ right) := by
  have before := branches_nodes_apart 0 left fun i _ hi => show i ≠ left.length by omega
  have after := branches_nodes_apart (left.length + 1) right
    fun i hi _ => show i ≠ left.length by omega
  rw [branches, List.map_map, List.zipIdx_append, List.zipIdx_cons, List.filter_append,
    List.filter_cons_of_neg (by simp), List.map_append, Nat.zero_add]
  exact (congrArg₂ (· ++ ·) before after).trans (List.filter_append ..).symm

end Branches

/-! ### Branches of a walk -/

section Trail

variable {insert expected : Symbol} {t next n : DerivationTree} {path rest : List Symbol}
  {left right chain : List DerivationTree} {walk : Walk} {depth i : Nat} {above p q : List Nat}

theorem child_taken (split : t.children = left ++ next :: right) :
    t.children[left.length]? = some next := by
  rw [split, List.getElem?_append_right (Nat.le_refl _), Nat.sub_self]
  rfl

theorem trail_stray (none : ∀ c ∈ t.children, c.symbol ≠ expected) :
    trail t (expected :: rest) = [] := by
  have past : t.children.findIdx (fun c => decide (c.symbol = expected)) = t.children.length := by
    rw [List.findIdx_eq_length]
    simpa using none
  rw [trail, past, List.getElem?_length]

theorem trail_pass (split : t.children = left ++ next :: right)
    (before : ∀ c ∈ left, c.symbol ≠ next.symbol) :
    trail t (next.symbol :: rest) = left.length :: trail next rest := by
  have first : t.children.findIdx (fun c => decide (c.symbol = next.symbol)) = left.length := by
    have passed : ¬ left.findIdx (fun c => decide (c.symbol = next.symbol)) < left.length := by
      rw [List.findIdx_lt_length]
      simpa using before
    rw [split, List.findIdx_append, if_neg passed, List.findIdx_cons]
    simp
  rw [trail, first, child_taken split]

/-- The trail leads to the last node that is reached, which has no child with the next symbol unless
the path ends there. -/
theorem Course.reached (h : Course insert t path chain walk) (depth : Nat) :
    ∃ last, t.descend depth (trail t path) = .ok last ∧
      walk.outcome = path[(trail t path).length]?.elim
        (.ok ⟨last, last.children.find? fun c => c.symbol = insert⟩)
        fun expected => .error (.structuralMismatch last.symbol expected) := by
  induction h generalizing depth with
  | arrive t => exact ⟨t, rfl, rfl⟩
  | stray t expected rest none =>
    rw [trail_stray none]
    exact ⟨t, rfl, rfl⟩
  | @pass t next left right rest chain walk split before _ ih =>
    obtain ⟨last, found, outcome⟩ := ih (depth + 1)
    rw [trail_pass split before, List.length_cons, List.getElem?_cons_succ]
    refine ⟨last, Tree.descend_cons_ok.2 ⟨next, child_taken split, found⟩, outcome⟩

theorem descend_singleton {i : Nat} :
    t.descend depth [i] = .ok n ↔ t.children[i]? = some n := by
  rw [Tree.descend_cons_ok]
  constructor
  · rintro ⟨c, hc, here⟩
    cases here
    exact hc
  · exact fun hc => ⟨n, hc, rfl⟩

theorem beside_nil :
    Beside t depth [] p n ↔ (p, n) ∈ branches t.children t.children.length := by
  rw [mem_branches]
  constructor
  · rintro ⟨⟨above, i, rfl, top⟩, -, found, hn⟩
    obtain rfl := List.prefix_nil.1 top
    have hc := descend_singleton.1 found
    obtain ⟨bound, -⟩ := List.getElem?_eq_some_iff.1 hc
    exact ⟨i, rfl, Nat.ne_of_lt bound, hc, hn⟩
  · rintro ⟨i, rfl, -, hc, hn⟩
    exact ⟨⟨[], i, rfl, List.nil_prefix⟩, by simp, descend_singleton.2 hc, hn⟩

/-- Beside the trail means beside its first step or beside the rest of it. -/
theorem beside_cons (hnext : t.children[i]? = some next) {rest : List Nat} :
    Beside t depth (i :: rest) p n ↔
      (p, n) ∈ branches t.children i ∨
        ∃ q, p = i :: q ∧ Beside next (depth + 1) rest q n := by
  rw [mem_branches]
  constructor
  · rintro ⟨⟨above, j, rfl, top⟩, off, found, hn⟩
    cases above with
    | nil =>
      refine .inl ⟨j, rfl, ?_, descend_singleton.1 found, hn⟩
      rintro rfl
      exact off (List.cons_prefix_cons.2 ⟨rfl, List.nil_prefix⟩)
    | cons k above =>
      obtain ⟨rfl, within⟩ := List.cons_prefix_cons.1 top
      obtain ⟨c, hc, found⟩ := Tree.descend_cons_ok.1 found
      obtain rfl : next = c := Option.some.inj (hnext.symm.trans hc)
      refine .inr ⟨above ++ [j], rfl, ⟨above, j, rfl, within⟩, fun on => off ?_, found, hn⟩
      exact List.cons_prefix_cons.2 ⟨rfl, on⟩
  · rintro (⟨j, rfl, differ, hc, hn⟩ | ⟨q, rfl, ⟨above, j, rfl, top⟩, off, found, hn⟩)
    · refine ⟨⟨[], j, rfl, List.nil_prefix⟩, fun on => ?_, descend_singleton.2 hc, hn⟩
      exact differ (List.cons_prefix_cons.1 on).1
    · refine ⟨⟨i :: above, j, rfl, ?_⟩, fun on => ?_, ?_, hn⟩
      · exact List.cons_prefix_cons.2 ⟨rfl, top⟩
      · exact off (List.cons_prefix_cons.1 on).2
      · exact Tree.descend_cons_ok.2 ⟨next, hnext, found⟩

theorem Sooner.cons (sooner : Sooner p q) (i : Nat) : Sooner (i :: p) (i :: q) := by
  rw [Sooner, Path.leftOf_cons_self, List.length_cons, List.length_cons]
  refine sooner.imp Nat.succ_lt_succ fun level => ?_
  exact ⟨congrArg Nat.succ level.1, level.2⟩

/-- A walk queues the branches beside its trail, each once and in order. -/
theorem Course.exists_placed (h : Course insert t path chain walk) (depth : Nat) :
    ∃ placed : List (List Nat × DerivationTree), placed.map Prod.snd = walk.queued ∧
      (∀ p n, (p, n) ∈ placed ↔ Beside t depth (trail t path) p n) ∧
      placed.Pairwise fun e f => Sooner e.1 f.1 := by
  induction h generalizing depth with
  | arrive t =>
    exact ⟨branches t.children t.children.length, branches_nodes t.children,
      fun p n => beside_nil.symm, branches_sooner _ _⟩
  | stray t expected rest none =>
    rw [trail_stray none]
    exact ⟨branches t.children t.children.length, branches_nodes t.children,
      fun p n => beside_nil.symm, branches_sooner _ _⟩
  | @pass t next left right rest chain walk split before _ ih =>
    obtain ⟨placed, nodes, members, sooner⟩ := ih (depth + 1)
    refine ⟨branches t.children left.length ++
      placed.map fun e => (left.length :: e.1, e.2), ?_, fun p n => ?_, ?_⟩
    · rw [List.map_append, List.map_map, split, branches_nodes_around, ← nodes]
      rfl
    · rw [trail_pass split before, beside_cons (child_taken split), List.mem_append]
      refine or_congr_right ?_
      rw [List.mem_map]
      constructor
      · rintro ⟨⟨q, m⟩, hq, he⟩
        obtain ⟨rfl, rfl⟩ := Prod.mk.inj he
        exact ⟨q, rfl, (members q m).1 hq⟩
      · rintro ⟨q, rfl, hq⟩
        exact ⟨(q, n), (members q n).2 hq, rfl⟩
    · refine List.pairwise_append.2 ⟨branches_sooner _ _, ?_, ?_⟩
      · exact List.pairwise_map.2 (sooner.imp fun earlier => earlier.cons left.length)
      · rintro ⟨p, m⟩ hp e he
        obtain ⟨i, rfl, -⟩ := mem_branches.1 hp
        obtain ⟨⟨q, n⟩, hq, rfl⟩ := List.mem_map.1 he
        obtain ⟨above, j, rfl, -⟩ := ((members q n).1 hq).under
        exact .inl (by simp)

/-! ### Sharing out -/

/-- A branch beside the trail continues no other one, since the nodes above it are on the trail. -/
theorem Beside.apart {trail : List Nat} {m : DerivationTree} (hp : Beside t depth trail p n)
    (hq : Beside t depth trail q m) (sooner : Sooner p q) : ¬ p <+: q ∧ ¬ q <+: p := by
  have differ : p ≠ q := by
    rintro rfl
    obtain shorter | ⟨-, left⟩ := sooner
    · exact Nat.lt_irrefl _ shorter
    · rw [Path.leftOf_irrefl] at left
      exact Bool.false_ne_true left
  have separate {p q : List Nat} (off : ¬ p <+: trail)
      (under : ∃ above i, q = above ++ [i] ∧ above <+: trail) (differ : p ≠ q) : ¬ p <+: q := by
    obtain ⟨above, i, rfl, top⟩ := under
    intro nested
    obtain same | higher := List.prefix_concat_iff.1 nested
    · exact differ same
    · exact off (higher.trans top)
  exact ⟨separate hp.off hq.under differ, separate hq.off hp.under differ.symm⟩

/-- A position that is not on the trail has left it with one of its steps. -/
theorem exists_departure {trail d : List Nat} (off : ¬ d <+: trail) :
    ∃ above i, above ++ [i] <+: d ∧ above <+: trail ∧ ¬ above ++ [i] <+: trail := by
  induction d generalizing trail with
  | nil => exact absurd List.nil_prefix off
  | cons i d ih =>
    by_cases on : [i] <+: trail
    · obtain ⟨trail, rfl⟩ := on
      rw [List.singleton_append, List.cons_prefix_cons] at off
      obtain ⟨above, j, here, top, away⟩ := ih fun below => off ⟨rfl, below⟩
      refine ⟨i :: above, j, ?_, ?_, ?_⟩
      · exact List.cons_prefix_cons.2 ⟨rfl, here⟩
      · exact List.cons_prefix_cons.2 ⟨rfl, top⟩
      · exact fun below => away (List.cons_prefix_cons.1 below).2
    · exact ⟨[], i, List.cons_prefix_cons.2 ⟨rfl, List.nil_prefix⟩, List.nil_prefix, on⟩

end Trail

/-- Only nonterminals stand between the start and a position, and at the position itself. -/
def Exposed (start : DerivationTree) (d : Path) : Prop :=
  ∀ p : Path, p.isAncestor d → p ≠ .root →
    ∃ n, start.subtreeAt p = .ok n ∧ n.symbol.isNonterminal

/-- Branches that share out, together with a trail, what is exposed below the start. -/
structure Shares (start : DerivationTree) (trail : Path)
    (placed : List (Path × DerivationTree)) : Prop where
  below : ∀ e ∈ placed, e.1 ≠ .root ∧ start.subtreeAt e.1 = .ok e.2 ∧ e.2.symbol.isNonterminal
  beside : ∀ e ∈ placed, ∃ above, e.1.parent? = some above ∧ above.isAncestor trail
  ordered : placed.Pairwise fun e f =>
    e.1.length < f.1.length ∨ e.1.length = f.1.length ∧ e.1.isBefore f.1
  apart : placed.Pairwise fun e f => ¬ e.1.isAncestor f.1 ∧ ¬ f.1.isAncestor e.1
  shared : ∀ d : Path, d ≠ .root → Exposed start d →
    placed.countP (fun e => e.1.isAncestor d) = if d.isAncestor trail then 0 else 1

/-- Of positions that stand apart only one is above another position. -/
theorem countP_of_apart {placed : List (Path × DerivationTree)} {e : Path × DerivationTree}
    {d : Path} (apart : placed.Pairwise fun e f => ¬ e.1.isAncestor f.1 ∧ ¬ f.1.isAncestor e.1)
    (he : e ∈ placed) (above : e.1.isAncestor d) :
    placed.countP (fun e => e.1.isAncestor d) = 1 := by
  obtain ⟨before, after, rfl⟩ := List.append_of_mem he
  obtain ⟨-, later, earlier⟩ := List.pairwise_append.1 apart
  have alone : ∀ f : Path × DerivationTree, ¬ e.1.isAncestor f.1 ∧ ¬ f.1.isAncestor e.1 →
      ¬ f.1.isAncestor d := by
    intro f separate beside
    have nested := List.prefix_or_prefix_of_prefix (Path.isAncestor_iff.1 above)
      (Path.isAncestor_iff.1 beside)
    rw [← Path.isAncestor_iff, ← Path.isAncestor_iff] at nested
    exact nested.elim separate.1 separate.2
  have none : before.countP (fun e => e.1.isAncestor d) = 0 :=
    List.countP_eq_zero.2 fun f hf => alone f (earlier f hf e List.mem_cons_self).symm
  have none' : after.countP (fun e => e.1.isAncestor d) = 0 :=
    List.countP_eq_zero.2 fun f hf => alone f (List.rel_of_pairwise_cons later hf)
  rw [List.countP_append, List.countP_cons_of_pos (by exact above), none, none']

theorem Beside.below {start : DerivationTree} {trail : List Nat} (h : Beside start 0 trail p n) :
    Path.mk p ≠ .root ∧ start.subtreeAt ⟨p⟩ = .ok n ∧ n.symbol.isNonterminal := by
  obtain ⟨⟨above, i, rfl, -⟩, -, found, hn⟩ := h
  exact ⟨by simp [Path.root], Tree.subtreeAt_eq_ok.2 found, hn⟩

theorem Beside.parent {trail : List Nat} (h : Beside t depth trail p n) :
    ∃ above, (Path.mk p).parent? = some above ∧ above.isAncestor ⟨trail⟩ := by
  obtain ⟨above, i, rfl, top⟩ := h.under
  exact ⟨⟨above⟩, Path.parent?_child ⟨above⟩ i, Path.isAncestor_iff.2 top⟩

/-- Where an exposed position leaves the trail there is a branch. -/
theorem Exposed.exists_beside {start : DerivationTree} {trail : List Nat} {d : Path}
    (exposed : Exposed start d) (off : ¬ d.isAncestor ⟨trail⟩) :
    ∃ p n, Beside start 0 trail p n ∧ (Path.mk p).isAncestor d := by
  rw [Path.isAncestor_iff] at off
  obtain ⟨above, i, here, top, away⟩ := exists_departure off
  have higher : (Path.mk (above ++ [i])).isAncestor d := Path.isAncestor_iff.2 here
  obtain ⟨n, found, hn⟩ := exposed ⟨above ++ [i]⟩ higher (by simp [Path.root])
  exact ⟨above ++ [i], n, ⟨⟨above, i, rfl, top⟩, away, Tree.subtreeAt_eq_ok.1 found, hn⟩, higher⟩

theorem exists_shares (start : DerivationTree) (path : List Symbol) (insert : Symbol) :
    ∃ placed : List (Path × DerivationTree),
      placed.map Prod.snd = (follow insert start path).queued ∧
      Shares start ⟨trail start path⟩ placed := by
  obtain ⟨chain, course⟩ := course_follow insert start path
  obtain ⟨placed, nodes, members, sooner⟩ := course.exists_placed 0
  have beside : ∀ e ∈ placed, Beside start 0 (trail start path) e.1 e.2 :=
    fun e he => (members e.1 e.2).1 he
  have apart : (placed.map fun e => (Path.mk e.1, e.2)).Pairwise
      fun e f => ¬ e.1.isAncestor f.1 ∧ ¬ f.1.isAncestor e.1 := by
    simp only [List.pairwise_map, Path.isAncestor_iff]
    exact sooner.imp_of_mem fun he hf earlier => (beside _ he).apart (beside _ hf) earlier
  refine ⟨placed.map fun e => (⟨e.1⟩, e.2), ?_, ?_, ?_, ?_, apart, fun d proper exposed => ?_⟩
  · rw [List.map_map]
    exact nodes
  · simp only [List.forall_mem_map]
    exact fun e he => (beside e he).below
  · simp only [List.forall_mem_map]
    exact fun e he => (beside e he).parent
  · exact List.pairwise_map.2 sooner
  · split
    · rename_i on
      rw [List.countP_eq_zero]
      simp only [List.forall_mem_map]
      intro e he above
      exact (beside e he).off ((Path.isAncestor_iff.1 above).trans (Path.isAncestor_iff.1 on))
    · rename_i off
      obtain ⟨p, n, branch, higher⟩ := exposed.exists_beside off
      exact countP_of_apart apart (List.mem_map_of_mem ((members p n).2 branch)) higher

theorem frontier_attach (site : Site) (s : Search) {node : DerivationTree} {path : List Symbol}
    (known : site.paths node.symbol s.insertSymbol = some path) :
    (site.attach s node).2.frontier =
      s.frontier ++ (along node path s.insertSymbol).queued := by
  simp only [Site.attach, known]
  cases (along node path s.insertSymbol).outcome <;> rfl

theorem exists_middle {path : List Symbol} {first : Symbol} (long : 2 ≤ path.length)
    (begins : path.head? = some first) : ∃ middle last, path = first :: (middle ++ [last]) := by
  obtain ⟨rest, rfl⟩ := List.head?_eq_some_iff.1 begins
  have steps : rest ≠ [] := by
    rintro rfl
    exact absurd long (by simp)
  exact ⟨rest.dropLast, rest.getLast steps, by rw [List.dropLast_append_getLast]⟩

/-- Whether or not a walk gets to its end, it adds to whatever is queued the nonterminal branches
beside its trail, from the top down and from left to right, none of them within another. Each
position below the start that only nonterminals separate from it is on the trail or within exactly
one of these branches. -/
theorem along_shares (start : DerivationTree) (path : List Symbol) (insert : Symbol)
    (long : 2 ≤ path.length) (begins : path.head? = some start.symbol) :
    let walk := along start path insert
    let steps := path.tail.dropLast
    let taken : Path := ⟨trail start steps⟩
    (∃ last, start.subtreeAt taken = .ok last ∧
      walk.outcome = steps[taken.length]?.elim
        (.ok ⟨last, last.children.find? fun c => c.symbol = insert⟩)
        fun expected => .error (.structuralMismatch last.symbol expected)) ∧
    (∃ placed : List (Path × DerivationTree),
      placed.map Prod.snd = walk.queued ∧ Shares start taken placed) ∧
    ∀ (site : Site) (s : Search), s.insertSymbol = insert →
      site.paths start.symbol insert = some path →
      (site.attach s start).2.frontier = s.frontier ++ walk.queued := by
  obtain ⟨middle, goal, rfl⟩ := exists_middle long begins
  have between : (start.symbol :: (middle ++ [goal])).tail.dropLast = middle := List.dropLast_concat
  rw [between, along_path]
  intro walk steps taken
  refine ⟨?_, exists_shares start middle insert, ?_⟩
  · obtain ⟨chain, course⟩ := course_follow insert start middle
    obtain ⟨last, found, outcome⟩ := course.reached 0
    exact ⟨last, Tree.subtreeAt_eq_ok.2 found, outcome⟩
  · rintro site s rfl known
    rw [frontier_attach site s known, along_path]

/-- A node that occurs three times beside a walk that goes astray is queued three times. -/
theorem along_shares_repeated :
    let twig : DerivationTree := .node ⟨1, ⟨"<b>"⟩⟩ [.node ⟨0, ⟨"x"⟩⟩ []]
    let start : DerivationTree := .node ⟨3, ⟨"<a>"⟩⟩ [twig, .node ⟨2, ⟨"<c>"⟩⟩ [twig], twig]
    let path : List Symbol := [⟨"<a>"⟩, ⟨"<c>"⟩, ⟨"<d>"⟩, ⟨"<e>"⟩]
    2 ≤ path.length ∧ path.head? = some start.symbol ∧
      ∃ placed, placed.map Prod.snd = [twig, twig, twig] ∧ Shares start ⟨[1]⟩ placed := by
  intro twig start path
  refine ⟨by decide, rfl, ?_⟩
  obtain ⟨-, ⟨placed, nodes, shares⟩, -⟩ := along_shares start path ⟨"<e>"⟩ (by decide) rfl
  have queued : (along start path ⟨"<e>"⟩).queued = [twig, twig, twig] := by cbv
  have taken : trail start path.tail.dropLast = [1] := by rfl
  exact ⟨placed, nodes.trans queued, taken ▸ shares⟩

end Scion.Walk
