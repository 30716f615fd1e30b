import Scion.Derivation.Fingerprint
import Scion.Graft.Placement
import Scion.Graft.Search
import Scion.Graft.Settings
import Scion.Graft.Validity

/-!
Running an insertion. A run drives the search and judges its candidates one by one: a candidate is
rejected, recognised as a repetition, or emitted. Results come out lazily, in the order in which the
search finds them, until the search is exhausted or enough of them have been emitted.
-/

namespace Scion

/-- Everything that determines a run. -/
structure GraftRequest where
  grammar : Grammar
  paths : ProductionPaths
  target : DerivationTree
  insert : DerivationTree
  placement? : Option Placement := none
  settings : GraftSettings := {}

/-- How many nodes were examined, what became of them, and how often the tree was wrapped. -/
structure GraftStats where
  candidates : Nat := 0
  discarded : Nat := 0
  rejected : Nat := 0
  duplicates : Nat := 0
  extensions : Nat := 0
  emitted : Nat := 0
deriving DecidableEq, Repr, Inhabited

inductive GraftStep where
  | emit (tree : DerivationTree)
  | continue
  | done

structure GraftRun where
  site : Site
  settings : GraftSettings
  validity : Validity
  placement? : Option Placement
  search : Search
  /-- Fingerprints of the emitted trees. -/
  seen : List UInt64
  stats : GraftStats

namespace GraftRequest

def site (r : GraftRequest) : Site where
  grammar := r.grammar
  paths := r.paths
  target := r.target
  expandTrivial := r.settings.expandTrivial
  maxExtensions := r.settings.maxExtensions

/-- Fresh identities are issued from `next` on. -/
def start (r : GraftRequest) (next : NodeId) : GraftRun where
  site := r.site
  settings := r.settings
  validity := .ofTrees r.target r.insert
  placement? := r.placement?
  search := r.site.start r.insert next
  seen := []
  stats := {}

end GraftRequest

namespace GraftRun

def limitReached (r : GraftRun) : Bool :=
  match r.settings.maxSolutions with
  | some max => max ≤ r.stats.emitted
  | none => false

def judge (r : GraftRun) (t : DerivationTree) : Except Rejection Unit :=
  match if r.settings.checkValidity then r.validity.judge t.text else .ok () with
  | .error e => .error e
  | .ok () =>
    match r.placement? with
    | none => .ok ()
    | some p => if p.holds t r.validity.insertText then .ok () else .error .misplaced

def accept (r : GraftRun) (t : DerivationTree) : GraftStep × GraftRun :=
  match r.judge t with
  | .error _ =>
    (.continue, { r with stats := { r.stats with rejected := r.stats.rejected + 1 } })
  | .ok () =>
    if r.seen.contains t.fingerprint then
      (.continue, { r with stats := { r.stats with duplicates := r.stats.duplicates + 1 } })
    else
      (.emit t, { r with
        seen := t.fingerprint :: r.seen
        stats := { r.stats with emitted := r.stats.emitted + 1 } })

/-- One unit of work of the search, and the verdict on what it found. -/
def work (r : GraftRun) : GraftStep × GraftRun :=
  let (finding, search) := r.site.step r.search
  let r := { r with search := search, stats := { r.stats with extensions := search.extensions } }
  match finding with
  | .exhausted => (.done, r)
  | .idle => (.continue, r)
  | .discarded =>
    (.continue, { r with stats := { r.stats with
      candidates := r.stats.candidates + 1
      discarded := r.stats.discarded + 1 } })
  | .candidate t =>
    accept { r with stats := { r.stats with candidates := r.stats.candidates + 1 } } t

def step (r : GraftRun) : GraftStep × GraftRun :=
  if r.limitReached then (.done, { r with search := { r.search with phase := .done } })
  else r.work

def advance : Nat → GraftRun → Option DerivationTree × GraftRun
  | 0, r => (none, r)
  | steps + 1, r =>
    match r.step with
    | (.emit t, r) => (some t, r)
    | (.continue, r) => advance steps r
    | (.done, r) => (none, r)

/-- The next result, if there is one. -/
def next? (r : GraftRun) : Option DerivationTree × GraftRun :=
  advance (r.site.stepBound r.search) r

def drain : Nat → GraftRun → List DerivationTree × GraftRun
  | 0, r => ([], r)
  | steps + 1, r =>
    match r.step with
    | (.emit t, r) =>
      let (rest, r) := drain steps r
      (t :: rest, r)
    | (.continue, r) => drain steps r
    | (.done, r) => ([], r)

/-- All results from here on. -/
def results (r : GraftRun) : List DerivationTree × GraftRun :=
  drain (r.site.stepBound r.search) r

end GraftRun

end Scion
