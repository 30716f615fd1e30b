import Mathlib.Data.List.Count
import Scion.Proofs.Graft.Host

/-!
Which slot gets what. A host takes the inserted tree in the first slot with its symbol, the old
subtree in the first slot with its own symbol that is left, and a copy of a sibling in the first
further slot with the symbol of the inserted tree. Slots are told apart by their rank, the number of
equal symbols before them. The copy comes behind the inserted tree, but in front of the old subtree
when two slots for the inserted tree lie in front of that.
-/

namespace Scion

namespace Role

/-- The slot `n` has the symbol `x`, and `m` slots before it have it too. -/
def Ranked (a : Alternative) (x : Symbol) (m n : Nat) : Prop :=
  a[n]? = some x ∧ (a.take n).count x = m

variable {a : Alternative} {x y insert host : Symbol} {m m' n n' : Nat}

theorem exists_ranked (h : m < a.count x) : ∃ n, Ranked a x m n := by
  have inside : a.idxOfNth x m < a.length := List.idxOfNth_lt_length_iff.2 h
  refine ⟨a.idxOfNth x m, ?_, ?_⟩
  · rw [List.getElem?_eq_getElem inside, List.getElem_idxOfNth_eq]
  · rw [← List.countBefore_eq_count_take, List.countBefore_idxOfNth_of_lt_count h]

/-- A slot with a symbol counts from the next slot on. -/
theorem count_take_lt (hn : a[n]? = some x) (h : n < n') :
    (a.take n).count x < (a.take n').count x := by
  have next : (a.take (n + 1)).count x = (a.take n).count x + 1 := by
    rw [List.take_add_one, hn, List.count_append]
    simp
  have mono : (a.take (n + 1)).count x ≤ (a.take n').count x :=
    (List.take_sublist_take_left h).count_le x
  omega

theorem Ranked.lt_iff (h : Ranked a x m n) (h' : Ranked a x m' n') : n < n' ↔ m < m' := by
  obtain ⟨hn, rfl⟩ := h
  obtain ⟨hn', rfl⟩ := h'
  refine ⟨count_take_lt hn, fun less => ?_⟩
  by_contra back
  have mono : (a.take n').count x ≤ (a.take n).count x :=
    (List.take_sublist_take_left (Nat.le_of_not_lt back)).count_le x
  omega

theorem Ranked.eq (h : Ranked a x m n) (h' : Ranked a x m n') : n = n' := by
  have := h.lt_iff h'
  have := h'.lt_iff h
  omega

/-- Different symbols or different ranks belong to different slots. -/
theorem Ranked.ne (h : Ranked a x m n) (h' : Ranked a y m' n') (differ : x = y → m ≠ m') :
    n ≠ n' := by
  rintro rfl
  obtain rfl : x = y := Option.some.inj (h.1.symm.trans h'.1)
  exact differ rfl (h.2.symm.trans h'.2)

theorem Ranked.lt_count (h : Ranked a x m n) : m < a.count x := by
  obtain ⟨hn, rfl⟩ := h
  have more := count_take_lt hn (List.getElem?_eq_some_iff.1 hn).1
  rwa [List.take_length] at more

/-- At most one slot has a given rank. -/
theorem exists_ranked? (a : Alternative) (x : Symbol) (m : Nat) :
    ∃ slot? : Option Nat, ∀ n, n ∈ slot? ↔ Ranked a x m n := by
  by_cases more : m < a.count x
  · obtain ⟨k, hk⟩ := exists_ranked more
    refine ⟨some k, fun n => ⟨fun hn => ?_, fun hn => congrArg some (hk.eq hn)⟩⟩
    exact Option.some.inj hn ▸ hk
  · exact ⟨none, fun n => ⟨nofun, fun hn => absurd hn.lt_count more⟩⟩

/-! ### Roles by rank -/

/-- One slot is taken from the old subtree when it shares its symbol with the inserted tree. -/
def lead (insert host : Symbol) : Nat := if insert = host then 1 else 0

theorem lt_lead_iff : m < lead insert host ↔ insert = host ∧ m = 0 := by
  rw [lead]
  split <;> simp_all

/-- What still waits behind the slots `seen`. -/
def waitingAfter (insert host : Symbol) (sibling : DerivationTree) (seen : List Symbol) :
    Waiting where
  insert := seen.count insert = 0
  host := seen.count host ≤ lead insert host
  sibling? := if seen.count insert ≤ lead insert host + 1 then some sibling else none

/-- The role of a slot with the symbol `s` behind the slots `seen`. -/
def roleAfter (insert host : Symbol) (sibling : DerivationTree) (seen : List Symbol) (s : Symbol) :
    Role :=
  if s = insert ∧ seen.count insert = 0 then .insert
  else if s = host ∧ seen.count host = lead insert host then .host
  else if s = insert ∧ seen.count insert = lead insert host + 1 then .copy sibling
  else .filler s

section

variable {w : Waiting} {s : Symbol} {rest : List Symbol} {sibling : DerivationTree}

theorem assign_insert_slot (waits : w.insert) :
    assign insert host w (insert :: rest) =
      .insert :: assign insert host { w with insert := false } rest := by
  rw [assign, if_pos (by simpa using waits)]

theorem assign_host_slot (kept : w.insert → host ≠ insert) (waits : w.host) :
    assign insert host w (host :: rest) =
      .host :: assign insert host { w with host := false } rest := by
  rw [assign, if_neg (by simpa using kept), if_pos (by simpa using waits)]

theorem assign_copy_slot (taken : w.insert = false) (kept : w.host → insert ≠ host)
    (waits : w.sibling? = some sibling) :
    assign insert host w (insert :: rest) =
      .copy sibling :: assign insert host { w with sibling? := none } rest := by
  rw [assign, if_neg (by simp [taken]), if_neg (by simpa using kept), waits]
  exact if_pos rfl

theorem assign_free_slot (hi : w.insert → s ≠ insert) (hh : w.host → s ≠ host)
    (hc : w.sibling?.isSome → s ≠ insert) :
    assign insert host w (s :: rest) = .filler s :: assign insert host w rest := by
  rw [assign, if_neg (by simpa using hi), if_neg (by simpa using hh)]
  split
  · rename_i waits
    exact if_neg (hc (by rw [waits]; rfl))
  · rfl

theorem eq_waitingAfter {seen : List Symbol} (hi : w.insert = decide (seen.count insert = 0))
    (hh : w.host = decide (seen.count host ≤ lead insert host))
    (hc : w.sibling? = if seen.count insert ≤ lead insert host + 1 then some sibling else none) :
    w = waitingAfter insert host sibling seen := by
  cases w
  simp_all [waitingAfter]

theorem assign_waitingAfter (seen : List Symbol) :
    assign insert host (waitingAfter insert host sibling seen) (s :: rest) =
      roleAfter insert host sibling seen s ::
        assign insert host (waitingAfter insert host sibling (seen ++ [s])) rest := by
  have counted (x : Symbol) : (seen ++ [s]).count x = seen.count x + if s = x then 1 else 0 := by
    simp [List.count_append, List.count_singleton]
  have same : insert = host → seen.count host = seen.count insert := fun h => by rw [h]
  rw [roleAfter]
  -- one slot is settled in each case; what is left to show compares counts
  split_ifs with first own further
  · obtain ⟨rfl, first⟩ := first
    refine (assign_insert_slot ?_).trans
      (congrArg (_ :: assign _ _ · _) (eq_waitingAfter ?_ ?_ ?_))
    all_goals grind [waitingAfter, lead]
  · obtain ⟨rfl, own⟩ := own
    refine (assign_host_slot ?_ ?_).trans
      (congrArg (_ :: assign _ _ · _) (eq_waitingAfter ?_ ?_ ?_))
    all_goals grind [waitingAfter, lead]
  · obtain ⟨rfl, further⟩ := further
    refine (assign_copy_slot ?_ ?_ ?_).trans
      (congrArg (_ :: assign _ _ · _) (eq_waitingAfter ?_ ?_ ?_))
    all_goals grind [waitingAfter, lead]
  · refine (assign_free_slot ?_ ?_ ?_).trans
      (congrArg (_ :: assign _ _ · _) (eq_waitingAfter ?_ ?_ ?_))
    all_goals grind [waitingAfter, lead]

/-- The role of each slot is decided by the slots before it. -/
theorem getElem?_assign (seen : List Symbol) (a : Alternative) (n : Nat) :
    (assign insert host (waitingAfter insert host sibling seen) a)[n]? =
      a[n]?.map (roleAfter insert host sibling (seen ++ a.take n)) := by
  induction a generalizing seen n with
  | nil => simp [assign]
  | cons s rest ih =>
    rw [assign_waitingAfter]
    cases n with
    | zero => simp
    | succ n => simpa using ih (seen ++ [s]) n

/-- At the start everything waits. -/
theorem getElem?_assign_all (a : Alternative) {s : Symbol} (h : a[n]? = some s) :
    (assign insert host ⟨true, true, some sibling⟩ a)[n]? =
      some (roleAfter insert host sibling (a.take n) s) := by
  have start : (⟨true, true, some sibling⟩ : Waiting) = waitingAfter insert host sibling [] :=
    eq_waitingAfter rfl rfl rfl
  rw [start, getElem?_assign, h]
  rfl

theorem roleAfter_insert (h : Ranked a insert 0 n) :
    roleAfter insert host sibling (a.take n) insert = .insert := by
  simp [roleAfter, h.2]

theorem roleAfter_host (h : Ranked a host (lead insert host) n) :
    roleAfter insert host sibling (a.take n) host = .host := by
  have rank := h.2
  grind [roleAfter, lead]

theorem roleAfter_copy (h : Ranked a insert (lead insert host + 1) n) :
    roleAfter insert host sibling (a.take n) insert = .copy sibling := by
  have rank := h.2
  grind [roleAfter, lead]

theorem roleAfter_free {s : Symbol} (h : a[n]? = some s) (hi : ¬ Ranked a insert 0 n)
    (hh : ¬ Ranked a host (lead insert host) n) (hc : ¬ Ranked a insert (lead insert host + 1) n) :
    roleAfter insert host sibling (a.take n) s = .filler s := by
  grind [roleAfter, Ranked]

end

end Role

namespace Host

open Role (Ranked exists_ranked lead lt_lead_iff count_take_lt)

/-- The slots of the inserted tree, of the old subtree and of the copy, if there is one. -/
structure Slots (a : Alternative) (insert host : Symbol) (i j : Nat) (copy? : Option Nat) :
    Prop where
  insert_slot : a[i]? = some insert
  insert_first : ∀ k < i, a[k]? ≠ some insert
  host_slot : a[j]? = some host
  apart : j ≠ i
  host_first : ∀ k < j, a[k]? = some host → k = i
  copy_slot : ∀ k ∈ copy?, a[k]? = some insert ∧ i < k ∧ k ≠ j
  copy_first : ∀ k, a[k]? = some insert → k = i ∨ k = j ∨ ∃ l ∈ copy?, l ≤ k
  /-- The copy is behind the old subtree unless two slots for the inserted tree come first. -/
  copy_after : ∀ k ∈ copy?, j < k ↔ (a.take j).count insert < 2

theorem slots_of_ranked {a : Alternative} {insert host : Symbol} {i j : Nat} {copy? : Option Nat}
    (hi : Ranked a insert 0 i) (hj : Ranked a host (lead insert host) j)
    (hc : ∀ k, k ∈ copy? ↔ Ranked a insert (lead insert host + 1) k) :
    Slots a insert host i j copy? := by
  have ranked {x : Symbol} {k : Nat} (hk : a[k]? = some x) : Ranked a x ((a.take k).count x) k :=
    ⟨hk, rfl⟩
  have apart : j ≠ i := hj.ne hi fun same => by simp [lead, same]
  have taken {k : Nat} (hk : a[k]? = some insert)
      (low : (a.take k).count insert ≤ lead insert host) : k = i ∨ k = j := by
    obtain first | second := Nat.eq_zero_or_pos ((a.take k).count insert)
    · exact .inl (Ranked.eq ⟨hk, first⟩ hi)
    · obtain ⟨rfl, -⟩ := lt_lead_iff.1 (Nat.lt_of_lt_of_le second low)
      refine .inr (Ranked.eq ⟨hk, ?_⟩ hj)
      simp only [lead, if_true] at low ⊢
      omega
  have behind {k : Nat} (hk : k ∈ copy?) : i < k ∧ k ≠ j :=
    ⟨(hi.lt_iff ((hc k).1 hk)).2 (Nat.succ_pos _),
      ((hc k).1 hk).ne hj fun _ => Nat.succ_ne_self _⟩
  constructor
  case insert_slot => exact hi.1
  case insert_first => exact fun k less hk => by simpa using ((ranked hk).lt_iff hi).1 less
  case host_slot => exact hj.1
  case apart => exact apart
  case host_first =>
    intro k less hk
    obtain ⟨rfl, first⟩ := lt_lead_iff.1 (((ranked hk).lt_iff hj).1 less)
    exact Ranked.eq ⟨hk, first⟩ hi
  case copy_slot => exact fun k hk => ⟨((hc k).1 hk).1, behind hk⟩
  case copy_first =>
    intro k hk
    obtain low | high := Nat.lt_or_ge (lead insert host) ((a.take k).count insert)
    · obtain ⟨l, hl⟩ := exists_ranked (Nat.lt_of_le_of_lt low (ranked hk).lt_count)
      refine .inr (.inr ⟨l, (hc l).2 hl, Nat.le_of_not_lt fun less => ?_⟩)
      have := ((ranked hk).lt_iff hl).1 less
      omega
    · exact (taken hk high).imp_right .inl
  case copy_after =>
    intro k hk
    have rank := ((hc k).1 hk).2
    constructor
    · intro less
      have mono : (a.take j).count insert ≤ (a.take k).count insert :=
        (List.take_sublist_take_left (Nat.le_of_lt less)).count_le insert
      by_cases same : insert = host
      · subst same
        simp [lead, hj.2]
      · simp only [lead, if_neg same] at rank
        omega
    · intro few
      refine Nat.lt_of_le_of_ne (Nat.le_of_not_lt fun less => ?_) (behind hk).2.symm
      have more := count_take_lt ((hc k).1 hk).1 less
      omega

/-- The node built for an old subtree: the inserted tree is in the first slot with its symbol, the
old subtree in the first slot with its own that is left, a copy of the sibling in the first further
slot for an inserted tree, and everything else is new. -/
theorem build_slots (g : Grammar) (expandTrivial : Bool) {a : Alternative}
    {host insert sibling : DerivationTree} (next : NodeId)
    (room : Alternatives.hasSlots host.symbol insert.symbol a)
    (same : sibling.symbol = insert.symbol) :
    ∃ cs last i j copy?, build g expandTrivial a host insert (some sibling) next =
        (.node ⟨last, host.symbol⟩ cs, last + 1) ∧ cs.map Tree.symbol = a ∧
      Slots a insert.symbol host.symbol i j copy? ∧ cs[i]? = some insert ∧ cs[j]? = some host ∧
      ∀ k c, cs[k]? = some c → k ≠ i → k ≠ j → c.Issued next last ∧
        c.shape = if copy? = some k then sibling.shape else fillerShape g expandTrivial c.symbol := by
  obtain ⟨inserted, kept⟩ := Alternatives.room_of_hasSlots room
  obtain ⟨i, hi⟩ := Role.exists_ranked (List.count_pos_iff.2 inserted)
  obtain ⟨j, hj⟩ := Role.exists_ranked kept
  obtain ⟨copy?, hc⟩ := Role.exists_ranked? a insert.symbol (lead insert.symbol host.symbol + 1)
  obtain ⟨cs, last, made, -, spells, holds⟩ := @build_eq g expandTrivial insert host a next
    (some sibling) (by simpa using same)
  have holdsAt {k : Nat} {s : Symbol} (slot : a[k]? = some s) :
      ∃ c, cs[k]? = some c ∧ Role.Holds g expandTrivial insert host next last
        (Role.roleAfter insert.symbol host.symbol sibling (a.take k) s) c :=
    getElem?_of_forall₂ holds (Role.getElem?_assign_all a slot)
  refine ⟨cs, last, i, j, copy?, made, spells, slots_of_ranked hi hj hc, ?_, ?_, ?_⟩
  · obtain ⟨c, hcs, held⟩ := holdsAt hi.1
    rw [Role.roleAfter_insert hi] at held
    cases held
    exact hcs
  · obtain ⟨c, hcs, held⟩ := holdsAt hj.1
    rw [Role.roleAfter_host hj] at held
    cases held
    exact hcs
  · intro k c hk hki hkj
    have slot : a[k]? = some c.symbol := by
      rw [← spells, List.getElem?_map, hk]
      rfl
    obtain ⟨d, hd, held⟩ := holdsAt slot
    obtain rfl : c = d := Option.some.inj (hk.symm.trans hd)
    by_cases copied : copy? = some k
    · have rank := (hc k).1 copied
      rw [Option.some.inj (slot.symm.trans rank.1), Role.roleAfter_copy rank] at held
      rw [if_pos copied]
      cases held with
      | copy shape issued => exact ⟨issued, shape⟩
    · rw [Role.roleAfter_free slot (fun rank => hki (rank.eq hi)) (fun rank => hkj (rank.eq hj))
        (mt (hc k).2 copied)] at held
      rw [if_neg copied]
      cases held with
      | filler shape issued => exact ⟨issued, shape⟩

end Host

/-! ### Two slots in front -/

namespace FrontList

def rules : List Rule :=
  [⟨⟨"<list>"⟩, [[⟨"<item>"⟩], [⟨"<item>"⟩, ⟨"<item>"⟩, ⟨"<list>"⟩]]⟩,
    ⟨⟨"<item>"⟩, [[⟨"x"⟩], [⟨"y"⟩]]⟩]

def grammar : Grammar := ⟨rules, ParentIndex.ofRules rules, by decide, rfl⟩

def longer : Alternative := [⟨"<item>"⟩, ⟨"<item>"⟩, ⟨"<list>"⟩]

def sibling : DerivationTree := .node ⟨2, ⟨"<item>"⟩⟩ [.leaf ⟨1, ⟨"x"⟩⟩]

def host : DerivationTree := .node ⟨3, ⟨"<list>"⟩⟩ [sibling]

def insert : DerivationTree := .node ⟨5, ⟨"<item>"⟩⟩ [.leaf ⟨4, ⟨"y"⟩⟩]

theorem build_slots_front :
    Alternatives.hasSlots host.symbol insert.symbol longer ∧ sibling.symbol = insert.symbol ∧
      ∃ cs last i j copy?, Host.build grammar true longer host insert (some sibling) 6 =
          (.node ⟨last, host.symbol⟩ cs, last + 1) ∧ cs.map Tree.symbol = longer ∧
        Host.Slots longer insert.symbol host.symbol i j copy? ∧ cs[i]? = some insert ∧
        cs[j]? = some host ∧
        ∀ k c, cs[k]? = some c → k ≠ i → k ≠ j → c.Issued 6 last ∧
          c.shape = if copy? = some k then sibling.shape
            else Host.fillerShape grammar true c.symbol := by
  have room : Alternatives.hasSlots host.symbol insert.symbol longer := by decide
  have same : sibling.symbol = insert.symbol := by decide
  exact ⟨room, same, Host.build_slots grammar true 6 room same⟩

/-- Here the copy of the sibling comes in front of every slot with the old subtree. -/
theorem copy_in_front :
    longer ∈ grammar.alternatives host.symbol ∧
      Alternatives.hasSlots host.symbol insert.symbol longer ∧ sibling.symbol = insert.symbol ∧
      ∃ cs copy, Host.build grammar true longer host insert (some sibling) 6 =
          (.node ⟨8, host.symbol⟩ cs, 9) ∧
        cs[0]? = some insert ∧ cs[1]? = some copy ∧ cs[2]? = some host ∧
        copy.shape = sibling.shape ∧ copy.Issued 6 8 ∧ ∀ j : Nat, cs[j]? = some host → 1 < j := by
  refine ⟨by decide, by decide, by decide, [insert, (sibling.duplicate 6).1, host], _, rfl, rfl, rfl,
    rfl, rfl, Tree.issued_instantiate _ 6, fun j hj => ?_⟩
  match j, hj with
  | 0, hj => exact absurd (congrArg Tree.id (Option.some.inj hj)) (by decide)
  | 1, hj => exact absurd (congrArg Tree.id (Option.some.inj hj)) (by decide)
  | j + 2, _ => exact Nat.le_add_left ..

end FrontList

end Scion
