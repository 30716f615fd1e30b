import Scion.Proofs.Graft.Conformance
import Scion.Proofs.Graft.Coverage

/-!
The order in which nodes are examined. The frontier is a queue, but one walk queues branches at
every depth it passes. So nodes do not come in the order of their depths but in that of the number
of walks that lead to them: first the target, then what the walk from it queues, then what the walks
from there queue, and so on. Nothing is examined after a node below it, and when each walk has but
one step to make the two orders agree.
-/

namespace Scion

open Scion.Tree (preorder)

namespace Site

variable {site : Site} {s s' : Search} {insert : Symbol} {m n node : DerivationTree}
  {finding : Finding} {r : Nat} {rest frontier : List DerivationTree}

/-- A walk from `m` to the symbol queues `n`. -/
def Queues (site : Site) (insert : Symbol) (m n : DerivationTree) : Prop :=
  ∃ path, site.paths m.symbol insert = some path ∧ n ∈ (Walk.along m path insert).queued

/-- The number of walks that lead to a node, each from a node that the one before has queued. -/
inductive Rank (site : Site) (insert : Symbol) : Nat → DerivationTree → Prop
  | target : Rank site insert 0 site.target
  | queued {r : Nat} {m n : DerivationTree} :
      Rank site insert r m → site.Queues insert m n → Rank site insert (r + 1) n

theorem Queues.exists_path (h : site.Queues insert m n) (depth : Nat) :
    ∃ q, m.descend depth q = .ok n ∧ 1 ≤ q.length ∧ (n ∈ m.children → q.length = 1) := by
  by_cases child : n ∈ m.children
  · obtain ⟨i, hi⟩ := List.mem_iff_getElem?.1 child
    exact ⟨[i], Tree.descend_cons_ok.2 ⟨n, hi, rfl⟩, Nat.le_refl 1, fun _ => rfl⟩
  · obtain ⟨path, -, hn⟩ := h
    obtain ⟨c, hc, hn⟩ := Walk.exists_child_of_queued hn
    obtain ⟨i, hi⟩ := List.mem_iff_getElem?.1 hc
    obtain ⟨q, hq⟩ := Tree.exists_descend_of_mem_preorder hn (depth + 1)
    exact ⟨i :: q, Tree.descend_cons_ok.2 ⟨c, hi, hq⟩, by simp, (absurd · child)⟩

/-- Every walk leads down, and by one level only when it has but one step to make. -/
theorem Rank.exists_path (h : site.Rank insert r n) :
    ∃ p, site.target.subtreeAt p = .ok n ∧ r ≤ p.length ∧
      ((∀ m ∈ site.target.preorder, ∀ path ∈ site.paths m.symbol insert, path.length ≤ 2) →
        p.length = r) := by
  induction h with
  | target => exact ⟨.root, rfl, Nat.le_refl _, fun _ => rfl⟩
  | @queued r m n _ queues ih =>
    obtain ⟨p, hp, deep, level⟩ := ih
    obtain ⟨q, hq, down, single⟩ := queues.exists_path (0 + p.length)
    have total : (⟨p.toList ++ q⟩ : Path).length = p.length + q.length := List.length_append
    refine ⟨⟨p.toList ++ q⟩, ?_, by omega, fun short => ?_⟩
    · exact Tree.subtreeAt_eq_ok.2 (Tree.descend_append (Tree.subtreeAt_eq_ok.1 hp) hq)
    · obtain ⟨path, hpath, hn⟩ := queues
      have one := short m (Tree.mem_preorder_of_subtreeAt hp) path hpath
      have := single (Walk.queued_of_length_le one hn)
      have := level short
      omega

/-- What a trial does to the frontier. -/
theorem Trial.queues (h : site.Trial s node finding s') :
    ∃ queued lost, s'.insertSymbol = s.insertSymbol ∧ s'.frontier = s.frontier ++ queued ∧
      (queued.flatMap preorder ++ lost).Perm (node.children.flatMap preorder) ∧
      ∀ q ∈ queued, site.Queues s.insertSymbol node q := by
  have walked {path : List Symbol} (hpath : site.paths node.symbol s.insertSymbol = some path) :
      ∃ queued lost, s.insertSymbol = s.insertSymbol ∧
        s.frontier ++ (Walk.along node path s.insertSymbol).queued = s.frontier ++ queued ∧
        (queued.flatMap preorder ++ lost).Perm (node.children.flatMap preorder) ∧
        ∀ q ∈ queued, site.Queues s.insertSymbol node q := by
    obtain ⟨lost, kept⟩ := Walk.kept_along node path s.insertSymbol
    exact ⟨_, lost, rfl, rfl, kept, fun q hq => ⟨path, hpath, hq⟩⟩
  have stays : ∃ queued lost, s.insertSymbol = s.insertSymbol ∧ s.frontier = s.frontier ++ queued ∧
      (queued.flatMap preorder ++ lost).Perm (node.children.flatMap preorder) ∧
      ∀ q ∈ queued, site.Queues s.insertSymbol node q :=
    ⟨[], _, rfl, (List.append_nil _).symm, .refl _, by simp⟩
  cases h with
  | fill => exact stays
  | unfilled => exact stays
  | unreachable => exact stays
  | astray _ hpath => exact walked hpath
  | unsuited _ hpath => exact walked hpath
  | build _ hpath => exact walked hpath
  | unplaced _ hpath => exact walked hpath

/-- The queue holds nodes of one rank and behind them nodes of the next. -/
def Layered (site : Site) (insert : Symbol) (r : Nat) (frontier : List DerivationTree) : Prop :=
  ∃ now later, frontier = now ++ later ∧ (∀ n ∈ now, site.Rank insert r n) ∧
    ∀ n ∈ later, site.Rank insert (r + 1) n

theorem Layered.advance (h : site.Layered insert r (node :: rest)) :
    ∃ r' ≥ r, site.Rank insert r' node ∧ ∀ queued, (∀ q ∈ queued, site.Queues insert node q) →
      site.Layered insert r' (rest ++ queued) := by
  obtain ⟨now, later, split, here, next⟩ := h
  cases now with
  | nil =>
    rw [List.nil_append] at split
    subst split
    obtain ⟨first, others⟩ := List.forall_mem_cons.1 next
    exact ⟨r + 1, Nat.le_succ r, first, fun queued queues =>
      ⟨rest, queued, rfl, others, fun q hq => .queued first (queues q hq)⟩⟩
  | cons m now =>
    obtain ⟨rfl, rfl⟩ := List.cons.inj split
    obtain ⟨first, others⟩ := List.forall_mem_cons.1 here
    refine ⟨r, Nat.le_refl r, first, fun queued queues =>
      ⟨now, later ++ queued, List.append_assoc .., others, ?_⟩⟩
    exact List.forall_mem_append.2 ⟨next, fun q hq => .queued first (queues q hq)⟩

end Site

namespace GraftRun

variable {run : GraftRun} {ns : List DerivationTree}

/-- The node that the next step examines. -/
def examines? (run : GraftRun) : Option DerivationTree :=
  match run.search.frontier with
  | [] => none
  | node :: _ =>
    if run.limitReached ∨ run.search.phase ≠ .seek ∨ node.id ∈ run.search.visited then none
    else some node

/-- The nodes examined from a state of a phase of seeking on, up to any later state of the phase. -/
inductive Examines : GraftRun → List DerivationTree → Prop
  | nil {run : GraftRun} : Examines run []
  | step {run : GraftRun} {ns : List DerivationTree} : run.search.phase = .seek →
      Examines run.step.2 ns → Examines run (run.examines?.toList ++ ns)

theorem examines?_eq_none (h : run.limitReached ∨ run.search.phase ≠ .seek) :
    run.examines? = none := by
  rw [examines?]
  split
  · rfl
  · exact if_pos (h.imp_right .inl)

/-- The nodes examined are those that a run counts as candidates. -/
theorem candidates_step (run : GraftRun) :
    run.step.2.stats.candidates = run.stats.candidates + run.examines?.toList.length := by
  have moved := run.step_transition
  have searched := run.site.step_move run.search
  have idle {n : Nat} (h : run.examines? = none) : n = n + run.examines?.toList.length := by
    rw [h]
    rfl
  generalize run.step.1 = answer, run.step.2 = run' at moved ⊢
  cases moved with
  | stop limit => exact idle (examines?_eq_none (.inl limit))
  | exhausted going hs =>
    rw [hs] at searched
    cases searched with
    | finished hp => exact idle (examines?_eq_none (.inr (by simp [hp])))
    | exhaust hp => exact idle (examines?_eq_none (.inr (by simp [hp])))
    | examine _ _ _ trial => cases trial
  | idle going hs =>
    rw [hs] at searched
    cases searched with
    | turn _ hf => exact idle (by simp [examines?, hf])
    | skip _ hf seen => exact idle (by simp [examines?, hf, seen])
    | wrap hp => exact idle (examines?_eq_none (.inr (by simp [hp])))
    | examine _ _ _ trial => cases trial
  | discarded going hs =>
    rw [hs] at searched
    cases searched with
    | examine hp hf fresh => simp [examines?, going, hp, hf, fresh]
  | submit going hs judgement =>
    rw [hs] at searched
    cases searched with
    | examine hp hf fresh =>
      have found : run.examines?.toList.length = 1 := by simp [examines?, going, hp, hf, fresh]
      rw [found]
      cases judgement <;> rfl

/-- The nodes examined by the next steps, as long as the phase lasts. -/
def examinedIn : Nat → GraftRun → List DerivationTree
  | 0, _ => []
  | n + 1, run =>
    if run.search.phase = .seek then run.examines?.toList ++ examinedIn n run.step.2 else []

theorem examines_examinedIn (n : Nat) (run : GraftRun) : run.Examines (examinedIn n run) := by
  induction n generalizing run with
  | zero => exact .nil
  | succ n ih =>
    rw [examinedIn]
    split
    · rename_i hp
      exact .step hp (ih run.step.2)
    · exact .nil

theorem Examines.eq_nil (h : run.Examines ns) (hp : run.search.phase ≠ .seek) : ns = [] := by
  cases h with
  | nil => rfl
  | step seek => exact absurd seek hp

/-- A step of a phase of seeking ends it, or takes the first node of the frontier and puts what is
queued behind the others. -/
theorem seek_step (hp : run.search.phase = .seek) :
    (run.examines? = none ∧ run.step.2.search.phase ≠ .seek) ∨
      ∃ node rest queued lost, run.search.frontier = node :: rest ∧
        (run.examines? = none ∨ run.examines? = some node) ∧
        run.step.2.search.insertSymbol = run.search.insertSymbol ∧
        run.step.2.search.frontier = rest ++ queued ∧
        (queued.flatMap preorder ++ lost).Perm (node.children.flatMap preorder) ∧
        ∀ q ∈ queued, run.site.Queues run.search.insertSymbol node q := by
  have searched := run.step_frame.2
  by_cases stopped : run.limitReached
  · rw [if_pos stopped] at searched
    exact .inl ⟨examines?_eq_none (.inl stopped), by simp [searched]⟩
  rw [if_neg stopped] at searched
  have first {node : DerivationTree} {rest : List DerivationTree}
      (hf : run.search.frontier = node :: rest) :
      run.examines? = none ∨ run.examines? = some node := by
    simp only [examines?, hf]
    split
    · exact .inl rfl
    · exact .inr rfl
  have move := run.site.step_move run.search
  rw [searched]
  generalize (run.site.step run.search).1 = finding,
    (run.site.step run.search).2 = s' at move ⊢
  cases move with
  | finished hd => simp [hp] at hd
  | turn _ he => exact .inl ⟨by simp [examines?, he], by simp⟩
  | @skip node rest _ hf =>
    exact .inr ⟨node, rest, [], _, hf, first hf, rfl, (List.append_nil _).symm, .refl _, by simp⟩
  | @examine node rest _ _ _ hf _ trial =>
    obtain ⟨queued, lost, same, frontier, kept, queues⟩ := trial.queues
    exact .inr ⟨node, rest, queued, lost, hf, first hf, same, frontier, kept, queues⟩
  | wrap he => simp [hp] at he
  | exhaust he => simp [hp] at he

/-- Nodes are examined in the order of their ranks. -/
theorem Examines.ranked (h : run.Examines ns) {r : Nat}
    (layered : run.site.Layered run.search.insertSymbol r run.search.frontier) :
    ∃ ranked : List (Nat × DerivationTree), ranked.map Prod.snd = ns ∧
      (∀ x ∈ ranked, r ≤ x.1 ∧ run.site.Rank run.search.insertSymbol x.1 x.2) ∧
      ranked.Pairwise fun x y => x.1 ≤ y.1 := by
  induction h generalizing r with
  | nil => exact ⟨[], rfl, by simp, .nil⟩
  | @step run ns hp rest ih =>
    obtain ⟨idle, ends⟩ | ⟨node, others, queued, -, hf, first, same, frontier, -, queues⟩ :=
      seek_step hp
    · rw [idle, rest.eq_nil ends]
      exact ⟨[], rfl, by simp, .nil⟩
    · rw [hf] at layered
      obtain ⟨r', later, rank, advanced⟩ := layered.advance
      rw [run.step_frame.1, same, frontier] at ih
      obtain ⟨ranked, rfl, bounds, sorted⟩ := ih (advanced queued queues)
      have bounds' : ∀ x ∈ ranked, r ≤ x.1 ∧ run.site.Rank run.search.insertSymbol x.1 x.2 :=
        fun x hx => ⟨Nat.le_trans later (bounds x hx).1, (bounds x hx).2⟩
      obtain none | some := first
      · rw [none]
        exact ⟨ranked, rfl, bounds', sorted⟩
      · rw [some]
        exact ⟨(r', node) :: ranked, rfl, List.forall_mem_cons.2 ⟨⟨later, rank⟩, bounds'⟩,
          .cons (fun x hx => (bounds x hx).1) sorted⟩

/-- No node is examined after one below it. -/
theorem Examines.downward (h : run.Examines ns)
    (whole : (run.search.frontier.flatMap preorder).Nodup) :
    (∀ n ∈ ns, n ∈ run.search.frontier.flatMap preorder) ∧
      ns.Pairwise fun m n => m ∉ n.preorder := by
  induction h with
  | nil => exact ⟨by simp, .nil⟩
  | @step run ns hp rest ih =>
    obtain ⟨idle, ends⟩ | ⟨node, others, queued, lost, hf, first, -, frontier, kept, -⟩ :=
      seek_step hp
    · rw [idle, rest.eq_nil ends]
      exact ⟨by simp, .nil⟩
    · rw [frontier] at ih
      rw [hf] at whole ⊢
      -- what is below the frontier afterwards is what was there before, without the node itself
      have parts : (node :: ((others ++ queued).flatMap preorder ++ lost)).Perm
          ((node :: others).flatMap preorder) := by
        rw [List.flatMap_cons, Tree.preorder_eq_cons node, List.flatMap_append, List.cons_append,
          List.append_assoc]
        exact ((kept.append_left _).trans List.perm_append_comm).cons node
      obtain ⟨fresh, nodup⟩ := List.nodup_cons.1 (parts.nodup_iff.2 whole)
      obtain ⟨inside, sorted⟩ := ih nodup.of_append_left
      have within : ∀ n ∈ ns, n ∈ (node :: others).flatMap preorder := fun n hn =>
        parts.subset (List.mem_cons_of_mem _ (List.mem_append_left _ (inside n hn)))
      have apart : ∀ n ∈ ns, node ∉ n.preorder := by
        intro n hn below
        obtain ⟨f, hf, hnf⟩ := List.mem_flatMap.1 (inside n hn)
        refine fresh (List.mem_append_left _ (List.mem_flatMap.2 ⟨f, hf, ?_⟩))
        exact Tree.mem_preorder_trans below hnf
      obtain none | some := first
      · rw [none]
        exact ⟨within, sorted⟩
      · rw [some]
        refine ⟨List.forall_mem_cons.2 ⟨?_, within⟩, .cons apart sorted⟩
        exact List.mem_flatMap.2 ⟨node, List.mem_cons_self, Tree.self_mem_preorder node⟩

end GraftRun

namespace GraftRequest

variable {request : GraftRequest} {next : NodeId} {run : GraftRun} {ns : List DerivationTree}

theorem Opens.downward (distinct : request.target.ids.Nodup) (opens : request.Opens next run)
    (examined : run.Examines ns) :
    (∀ n ∈ ns, n ∈ request.target.preorder) ∧ ns.Pairwise fun m n => m ∉ n.preorder := by
  have frontier : run.search.frontier.flatMap preorder = request.target.preorder := by
    rw [opens.search.1, List.flatMap_singleton]
  have order := examined.downward (frontier ▸ .of_map _ distinct)
  rwa [frontier] at order

/-- The nodes that a phase of seeking examines come in the order of the number of walks that lead to
them, and none after a node below it. Their depths are at least these numbers; and when no walk has
more than one step to make, the depths never fall either. -/
theorem seek_order (distinct : request.target.ids.Nodup) (opens : request.Opens next run)
    (examined : run.Examines ns) :
    ∃ ranked : List (Nat × DerivationTree), ranked.map Prod.snd = ns ∧
      (∀ x ∈ ranked, request.site.Rank run.search.insert.symbol x.1 x.2) ∧
      (ranked.Pairwise fun x y => x.1 ≤ y.1) ∧
      (∀ x ∈ ranked, ∃ p, request.target.subtreeAt p = .ok x.2 ∧ x.1 ≤ p.length) ∧
      (ns.Pairwise fun m n => m ∉ n.preorder) ∧
      ((∀ m ∈ request.target.preorder, ∀ path ∈ request.paths m.symbol run.search.insert.symbol,
          path.length ≤ 2) →
        ns.Pairwise fun m n => ∀ p q, request.target.subtreeAt p = .ok m →
          request.target.subtreeAt q = .ok n → p.length ≤ q.length) := by
  obtain ⟨frontier, -⟩ := opens.search
  have site := opens.reaches.site_eq
  rw [← opens.reaches.noted]
  have layered : run.site.Layered run.search.insertSymbol 0 run.search.frontier := by
    rw [frontier, site]
    exact ⟨[request.target], [], rfl, List.forall_mem_singleton.2 .target, by simp⟩
  obtain ⟨ranked, rfl, ranks, sorted⟩ := examined.ranked layered
  rw [site] at ranks
  refine ⟨ranked, rfl, fun x hx => (ranks x hx).2, sorted, fun x hx => ?_,
    (opens.downward distinct examined).2, fun short => ?_⟩
  · obtain ⟨p, hp, deep, -⟩ := (ranks x hx).2.exists_path
    exact ⟨p, hp, deep⟩
  · rw [List.pairwise_map]
    refine sorted.imp_of_mem fun {x y} hx hy less p q hp hq => ?_
    have level {x : Nat × DerivationTree} {p : Path} (hx : x ∈ ranked)
        (hp : request.target.subtreeAt p = .ok x.2) : p.length = x.1 := by
      obtain ⟨p', hp', -, level⟩ := (ranks x hx).2.exists_path
      have same : p.toList = p'.toList := Tree.descend_injective distinct
        (Tree.subtreeAt_eq_ok.1 hp) (Tree.subtreeAt_eq_ok.1 hp') rfl
      exact (congrArg List.length same).trans (level short)
    rw [level hx hp, level hy hq]
    exact less

end GraftRequest

/-! ### A table with a list in one cell -/

namespace Table

def rules : List Rule :=
  [⟨⟨"<table>"⟩, [[⟨"<row>"⟩, ⟨" / "⟩, ⟨"<row>"⟩]]⟩,
    ⟨⟨"<row>"⟩, [[⟨"<cell>"⟩, ⟨" | "⟩, ⟨"<cell>"⟩]]⟩,
    ⟨⟨"<cell>"⟩, [[⟨"<item>"⟩], [⟨"<item>"⟩, ⟨" , "⟩, ⟨"<cell>"⟩]]⟩,
    ⟨⟨"<item>"⟩, [[⟨"a"⟩], [⟨"b"⟩], [⟨"c"⟩], [⟨"d"⟩], [⟨"e"⟩], [⟨"n"⟩]]⟩]

def grammar : Grammar := ⟨rules, ParentIndex.ofRules rules, by decide, rfl⟩

def item (id : NodeId) (text : String) : DerivationTree :=
  .node ⟨id + 1, ⟨"<item>"⟩⟩ [.leaf ⟨id, ⟨text⟩⟩]

def cell (id : NodeId) (text : String) : DerivationTree :=
  .node ⟨id + 2, ⟨"<cell>"⟩⟩ [item id text]

def longCell : DerivationTree :=
  .node ⟨7, ⟨"<cell>"⟩⟩ [item 1 "a", .leaf ⟨3, ⟨" , "⟩⟩, cell 4 "b"]

def upperRow : DerivationTree :=
  .node ⟨12, ⟨"<row>"⟩⟩ [longCell, .leaf ⟨8, ⟨" | "⟩⟩, cell 9 "c"]

def lowerRow : DerivationTree :=
  .node ⟨20, ⟨"<row>"⟩⟩ [cell 13 "d", .leaf ⟨16, ⟨" | "⟩⟩, cell 17 "e"]

def table : DerivationTree :=
  .node ⟨22, ⟨"<table>"⟩⟩ [upperRow, .leaf ⟨21, ⟨" / "⟩⟩, lowerRow]

def request : GraftRequest where
  grammar := grammar
  paths := (ProductionGraph.ofGrammar grammar).shortestPath?
  target := table
  insert := item 23 "n"

def newRow : DerivationTree :=
  .node ⟨30, ⟨"<row>"⟩⟩ [cell 23 "n", .leaf ⟨26, ⟨" | "⟩⟩, cell 27 "n"]

def rowRequest : GraftRequest := { request with insert := newRow }

/-- A row is mentioned by the table alone, and the rows come behind the table. -/
theorem seek_order_rows :
    table.ids.Nodup ∧ rowRequest.Opens 31 (rowRequest.start 31) ∧
      (rowRequest.start 31).Examines ((rowRequest.start 31).examinedIn 3) ∧
      (∀ m ∈ table.preorder, ∀ path ∈ rowRequest.paths m.symbol ⟨"<row>"⟩, path.length ≤ 2) ∧
      ∃ ranked : List (Nat × DerivationTree),
        ranked.map Prod.snd = (rowRequest.start 31).examinedIn 3 ∧
        (∀ x ∈ ranked, rowRequest.site.Rank ⟨"<row>"⟩ x.1 x.2) ∧
        (ranked.Pairwise fun x y => x.1 ≤ y.1) ∧
        (∀ x ∈ ranked, ∃ p, table.subtreeAt p = .ok x.2 ∧ x.1 ≤ p.length) ∧
        (((rowRequest.start 31).examinedIn 3).Pairwise fun m n => m ∉ n.preorder) ∧
        ((rowRequest.start 31).examinedIn 3).Pairwise fun m n => ∀ p q,
          table.subtreeAt p = .ok m → table.subtreeAt q = .ok n → p.length ≤ q.length := by
  have distinct : rowRequest.target.ids.Nodup := by decide
  have examined := GraftRun.examines_examinedIn 3 (rowRequest.start 31)
  have short : ∀ m ∈ table.preorder, ∀ path ∈ rowRequest.paths m.symbol ⟨"<row>"⟩,
      path.length ≤ 2 := by
    decide +kernel
  obtain ⟨ranked, nodes, ranks, sorted, deep, downward, level⟩ :=
    GraftRequest.seek_order distinct .start examined
  exact ⟨distinct, .start, examined, short, ranked, nodes, ranks, sorted, deep, downward,
    level short⟩

theorem conforms_leaf (id : NodeId) {text : String} (h : (⟨text⟩ : Symbol).isTerminal) :
    grammar.Conforms (Tree.leaf ⟨id, ⟨text⟩⟩).shape :=
  .leaf (.inl h)

theorem conforms_item (id : NodeId) {text : String}
    (known : [⟨text⟩] ∈ grammar.alternatives ⟨"<item>"⟩) (h : (⟨text⟩ : Symbol).isTerminal) :
    grammar.Conforms (item id text).shape :=
  .of_children known (List.forall_mem_singleton.2 (conforms_leaf id h))

theorem conforms_cell (id : NodeId) {text : String}
    (known : [⟨text⟩] ∈ grammar.alternatives ⟨"<item>"⟩) (h : (⟨text⟩ : Symbol).isTerminal) :
    grammar.Conforms (cell id text).shape :=
  have spelled : [⟨"<item>"⟩] ∈ grammar.alternatives ⟨"<cell>"⟩ := by decide
  .of_children spelled (List.forall_mem_singleton.2 (conforms_item id known h))

theorem conforms_table : grammar.Conforms table.shape := by
  have three {id : NodeId} {s : Symbol} {c d e : DerivationTree}
      (known : [c.symbol, d.symbol, e.symbol] ∈ grammar.alternatives s)
      (hc : grammar.Conforms c.shape) (hd : grammar.Conforms d.shape)
      (he : grammar.Conforms e.shape) : grammar.Conforms (Tree.node ⟨id, s⟩ [c, d, e]).shape :=
    .of_children known (by simp [hc, hd, he])
  have longCell : grammar.Conforms longCell.shape :=
    three (by decide) (conforms_item 1 (by decide) rfl) (conforms_leaf 3 rfl)
      (conforms_cell 4 (by decide) rfl)
  have upper : grammar.Conforms upperRow.shape :=
    three (by decide) longCell (conforms_leaf 8 rfl) (conforms_cell 9 (by decide) rfl)
  have lower : grammar.Conforms lowerRow.shape :=
    three (by decide) (conforms_cell 13 (by decide) rfl) (conforms_leaf 16 rfl)
      (conforms_cell 17 (by decide) rfl)
  exact three (by decide) upper (conforms_leaf 21 rfl) lower

theorem examined_ids : ((request.start 25).examinedIn 6).map Tree.id = [22, 20, 11, 2, 6, 19] := by
  decide +kernel

/-- The cell `b` is at depth 3 and is examined before the cell `e` at depth 2. -/
theorem deeper_first :
    request.paths = (ProductionGraph.ofGrammar grammar).shortestPath? ∧
      grammar.Conforms table.shape ∧ table.ids.Nodup ∧ request.Opens 25 (request.start 25) ∧
      ∃ ns, (request.start 25).Examines ns ∧
        ¬ ns.Pairwise fun m n => ∀ p q, table.subtreeAt p = .ok m →
          table.subtreeAt q = .ok n → p.length ≤ q.length := by
  have distinct : table.ids.Nodup := by decide
  have examined := GraftRun.examines_examinedIn 6 (request.start 25)
  refine ⟨rfl, conforms_table, distinct, .start, _, examined, fun sorted => ?_⟩
  have last : (((request.start 25).examinedIn 6).drop 4).map Tree.id = [6, 19] := by
    rw [List.map_drop, examined_ids]
    rfl
  obtain ⟨m, rest, split, hm, hrest⟩ := List.map_eq_cons_iff.1 last
  obtain ⟨n, rest, rfl, hn, -⟩ := List.map_eq_cons_iff.1 hrest
  have both := sorted.sublist (List.drop_sublist 4 _)
  rw [split] at both
  have inside := (GraftRequest.Opens.start.downward distinct examined).1
  have found {x : DerivationTree} (hx : x ∈ m :: n :: rest) :
      ∃ p, table.find? x.id = some p ∧ table.subtreeAt p = .ok x :=
    Tree.exists_find?_self distinct (inside x (List.mem_of_mem_drop (split ▸ hx)))
  obtain ⟨p, hp, hmp⟩ := found List.mem_cons_self
  obtain ⟨q, hq, hnq⟩ := found (List.mem_cons_of_mem _ List.mem_cons_self)
  have deep : table.find? 6 = some ⟨[0, 0, 2]⟩ := by decide
  have high : table.find? 19 = some ⟨[2, 2]⟩ := by decide
  obtain rfl := Option.some.inj ((hm ▸ hp).symm.trans deep)
  obtain rfl := Option.some.inj ((hn ▸ hq).symm.trans high)
  have := (List.pairwise_cons.1 both).1 n List.mem_cons_self _ _ hmp hnq
  exact absurd this (by decide)

end Table

end Scion
