import Scion.Json.Reader
import Scion.Proofs.Json.Writing

/-!
What the reader makes of a text. It accepts a text that stands for a value exactly when the containers
of the value nest at most 127 deep, and answers with the value in which each key keeps its first place
and its last member. It accepts no other text.
-/

namespace Scion.Json

namespace Value

theorem inductionOn {motive : Value → Prop} (null : motive null) (bool : ∀ b, motive (.bool b))
    (number : ∀ n, motive (.number n)) (string : ∀ s, motive (.string s))
    (array : ∀ items, (∀ v ∈ items, motive v) → motive (.array items))
    (object : ∀ members : List (String × Value), (∀ m ∈ members, motive m.2) →
      motive (.object members)) : ∀ v, motive v
  | .null => null
  | .bool b => bool b
  | .number n => number n
  | .string s => string s
  | .array items => array items fun v _ => inductionOn null bool number string array object v
  | .object members => object members fun m _ =>
      inductionOn null bool number string array object m.2
decreasing_by
  · have := List.sizeOf_lt_of_mem ‹v ∈ items›
    simp only [Value.array.sizeOf_spec]
    omega
  · obtain ⟨key, v⟩ := m
    have := List.sizeOf_lt_of_mem ‹(key, v) ∈ members›
    simp only [Value.object.sizeOf_spec, Prod.mk.sizeOf_spec] at this ⊢
    omega

mutual

/-- How deep containers nest. -/
def depth : Value → Nat
  | array items => itemDepth items + 1
  | object members => memberDepth members + 1
  | _ => 0

def itemDepth : List Value → Nat
  | [] => 0
  | v :: rest => max (depth v) (itemDepth rest)

def memberDepth : List (String × Value) → Nat
  | [] => 0
  | (_, v) :: rest => max (depth v) (memberDepth rest)

end

mutual

/-- The value in which a later member has taken the place of an earlier one with its key. -/
def settled : Value → Value
  | array items => array (settledItems items)
  | object members => object (settledMembers [] members)
  | v => v

def settledItems : List Value → List Value
  | [] => []
  | v :: rest => settled v :: settledItems rest

def settledMembers (before : List (String × Value)) :
    List (String × Value) → List (String × Value)
  | [] => before
  | (key, v) :: rest => settledMembers (Reader.put key (settled v) before) rest

end

theorem settledItems_eq_map (items : List Value) : settledItems items = items.map settled := by
  induction items with
  | nil => rfl
  | cons v items ih => rw [settledItems, ih, List.map_cons]

theorem settledMembers_append (before members members' : List (String × Value)) :
    settledMembers before (members ++ members') =
      settledMembers (settledMembers before members) members' := by
  induction members generalizing before with
  | nil => rfl
  | cons m members ih => exact ih _

theorem itemDepth_le {items : List Value} {n : Nat} :
    itemDepth items ≤ n ↔ ∀ v ∈ items, v.depth ≤ n := by
  induction items with
  | nil => simp [itemDepth]
  | cons v items ih => rw [itemDepth, Nat.max_le, ih, List.forall_mem_cons]

theorem memberDepth_le {members : List (String × Value)} {n : Nat} :
    memberDepth members ≤ n ↔ ∀ m ∈ members, m.2.depth ≤ n := by
  induction members with
  | nil => simp [memberDepth]
  | cons m members ih => rw [memberDepth, Nat.max_le, ih, List.forall_mem_cons]

theorem itemDepth_concat (items : List Value) (v : Value) :
    itemDepth (items ++ [v]) = max (itemDepth items) v.depth := by
  induction items with
  | nil => simp [itemDepth]
  | cons w items ih => rw [List.cons_append, itemDepth, ih, itemDepth, Nat.max_assoc]

theorem memberDepth_concat (members : List (String × Value)) (key : String) (v : Value) :
    memberDepth (members ++ [(key, v)]) = max (memberDepth members) v.depth := by
  induction members with
  | nil => simp [memberDepth]
  | cons m members ih => rw [List.cons_append, memberDepth, ih, memberDepth, Nat.max_assoc]

end Value

namespace Reader

variable {stack : List Frame} {ts rest : List Token} {v : Value}

/-! ### Reading the tokens of a value -/

theorem exists_firstToken (w : Value) (items : List Value) :
    ∃ t ts, Value.itemTokens (w :: items) = t :: ts ∧ t ≠ .closeArray := by
  cases items <;> cases w <;> simp [Value.itemTokens, Value.tokens]

/-- The first element of an array is read as the later ones are. -/
theorem run?_firstItem (w : Value) (items : List Value) :
    run? (.firstItem stack) (Value.itemTokens (w :: items) ++ rest) =
      run? (.value (.items [] :: stack)) (Value.itemTokens (w :: items) ++ rest) := by
  obtain ⟨t, ts, first, other⟩ := exists_firstToken w items
  rw [first]
  cases t with
  | closeArray => exact absurd rfl other
  | _ => rfl

theorem run?_firstKey (key : String) (w : Value) (members : List (String × Value)) :
    run? (.firstKey stack) (Value.memberTokens ((key, w) :: members) ++ rest) =
      run? (.key [] stack) (Value.memberTokens ((key, w) :: members) ++ rest) := by
  cases members <;> rfl

/-- The reader comes to the end of the value unless containers would nest too deep in it. -/
def Reads (v : Value) : Prop :=
  ∀ stack rest, stack.length ≤ maxDepth → run? (.value stack) (v.tokens ++ rest) =
    if stack.length + v.depth ≤ maxDepth then run? (.complete v.settled stack) rest else none

theorem Reads.item (here : Reads v) (room : stack.length < maxDepth) (before : List Value)
    (rest : List Token) :
    run? (.value (.items before :: stack)) (v.tokens ++ rest) =
      if stack.length + 1 + v.depth ≤ maxDepth then
        run? (.complete v.settled (.items before :: stack)) rest
      else none :=
  here (.items before :: stack) rest room

theorem Reads.member (here : Reads v) (room : stack.length < maxDepth)
    (before : List (String × Value)) (key : String) (rest : List Token) :
    run? (.key before stack) (.string key :: .colon :: (v.tokens ++ rest)) =
      if stack.length + 1 + v.depth ≤ maxDepth then
        run? (.complete v.settled (.members before key :: stack)) rest
      else none :=
  here (.members before key :: stack) rest room

theorem run?_items {w : Value} {items before : List Value} (room : stack.length < maxDepth)
    (here : Reads w) (behind : ∀ v ∈ items, Reads v) :
    run? (.value (.items before :: stack)) (Value.itemTokens (w :: items) ++ .closeArray :: rest) =
      if stack.length + 1 + Value.itemDepth (w :: items) ≤ maxDepth then
        run? (.complete (.array (before.reverse ++ Value.settledItems (w :: items))) stack) rest
      else none := by
  induction items generalizing w before with
  | nil =>
    have closed : run? (.complete w.settled (.items before :: stack)) (.closeArray :: rest) =
        run? (.complete (.array (w.settled :: before).reverse) stack) rest := rfl
    rw [Value.itemTokens, here.item room, closed]
    simp [Value.itemDepth, Value.settledItems]
  | cons w' items ih =>
    obtain ⟨next, behind⟩ := List.forall_mem_cons.1 behind
    have comma (ts : List Token) :
        run? (.complete w.settled (.items before :: stack)) (.comma :: ts) =
          run? (.value (.items (w.settled :: before) :: stack)) ts := rfl
    have both : stack.length + 1 + Value.itemDepth (w :: w' :: items) ≤ maxDepth ↔
        stack.length + 1 + w.depth ≤ maxDepth ∧
          stack.length + 1 + Value.itemDepth (w' :: items) ≤ maxDepth := by
      rw [Value.itemDepth]
      omega
    rw [Value.itemTokens, List.append_assoc, List.cons_append, here.item room, comma,
      ih next behind]
    simp only [both, ite_and, Value.settledItems, List.reverse_cons, List.append_assoc,
      List.singleton_append]

theorem run?_members {w : Value} {key : String} {members before : List (String × Value)}
    (room : stack.length < maxDepth) (here : Reads w) (behind : ∀ m ∈ members, Reads m.2) :
    run? (.key before stack)
        (Value.memberTokens ((key, w) :: members) ++ .closeObject :: rest) =
      if stack.length + 1 + Value.memberDepth ((key, w) :: members) ≤ maxDepth then
        run? (.complete (.object (Value.settledMembers before ((key, w) :: members))) stack) rest
      else none := by
  induction members generalizing w key before with
  | nil =>
    have closed : run? (.complete w.settled (.members before key :: stack)) (.closeObject :: rest) =
        run? (.complete (.object (put key w.settled before)) stack) rest := rfl
    rw [Value.memberTokens, List.cons_append, List.cons_append, here.member room, closed]
    simp [Value.memberDepth, Value.settledMembers]
  | cons m members ih =>
    obtain ⟨next, behind⟩ := List.forall_mem_cons.1 behind
    have comma (ts : List Token) :
        run? (.complete w.settled (.members before key :: stack)) (.comma :: ts) =
          run? (.key (put key w.settled before) stack) ts := rfl
    have both : stack.length + 1 + Value.memberDepth ((key, w) :: m :: members) ≤ maxDepth ↔
        stack.length + 1 + w.depth ≤ maxDepth ∧
          stack.length + 1 + Value.memberDepth (m :: members) ≤ maxDepth := by
      rw [Value.memberDepth]
      omega
    rw [Value.memberTokens, List.cons_append, List.cons_append, List.append_assoc,
      List.cons_append, here.member room, comma, ih next behind]
    simp only [both, ite_and, Value.settledMembers]

/-- A container is opened when there is room for it, and then holds what fits into it. -/
theorem run?_open {t : Token} {state : State} {depth : Nat} {outcome : Option Value}
    (opens : startValue? stack t = if stack.length < maxDepth then some state else none)
    (inside : stack.length < maxDepth → run? state ts =
      if stack.length + 1 + depth ≤ maxDepth then outcome else none) :
    run? (.value stack) (t :: ts) =
      if stack.length + (depth + 1) ≤ maxDepth then outcome else none := by
  rw [run?, step?, opens]
  by_cases room : stack.length < maxDepth
  · rw [if_pos room]
    simpa only [Nat.add_assoc, Nat.add_comm 1] using inside room
  · rw [if_neg room, if_neg (by omega)]

theorem reads (v : Value) : Reads v := by
  induction v using Value.inductionOn with
  | null => exact fun stack rest room => (if_pos room).symm
  | bool b => exact fun stack rest room => (if_pos room).symm
  | number n => exact fun stack rest room => (if_pos room).symm
  | string s => exact fun stack rest room => (if_pos room).symm
  | array items ih =>
    intro stack rest _
    rw [Value.tokens, Value.depth, Value.settled, List.cons_append, List.append_assoc]
    refine run?_open rfl fun room => ?_
    cases items with
    | nil => exact (if_pos room).symm
    | cons w items =>
      obtain ⟨here, behind⟩ := List.forall_mem_cons.1 ih
      rw [run?_firstItem]
      exact run?_items room here behind
  | object members ih =>
    intro stack rest _
    rw [Value.tokens, Value.depth, Value.settled, List.cons_append, List.append_assoc]
    refine run?_open rfl fun room => ?_
    cases members with
    | nil => exact (if_pos room).symm
    | cons m members =>
      obtain ⟨key, w⟩ := m
      obtain ⟨here, behind⟩ := List.forall_mem_cons.1 ih
      rw [run?_firstKey]
      exact run?_members room here behind

/-! ### What has been read -/

/-- The tokens of elements with more to come. -/
def openItems (ws : List Value) : List Token := ws.flatMap fun w => w.tokens ++ [.comma]

def openMembers (ms : List (String × Value)) : List Token :=
  ms.flatMap fun m => .string m.1 :: .colon :: (m.2.tokens ++ [.comma])

theorem itemTokens_concat (ws : List Value) (w : Value) :
    Value.itemTokens (ws ++ [w]) = openItems ws ++ w.tokens := by
  induction ws with
  | nil => rfl
  | cons v ws ih =>
    have unfolded : Value.itemTokens (v :: (ws ++ [w])) =
        v.tokens ++ .comma :: Value.itemTokens (ws ++ [w]) := by
      cases ws <;> rfl
    rw [List.cons_append, unfolded, ih]
    simp [openItems]

theorem memberTokens_concat (ms : List (String × Value)) (key : String) (w : Value) :
    Value.memberTokens (ms ++ [(key, w)]) =
      openMembers ms ++ .string key :: .colon :: w.tokens := by
  induction ms with
  | nil => rfl
  | cons m ms ih =>
    have unfolded : Value.memberTokens (m :: (ms ++ [(key, w)])) =
        .string m.1 :: .colon :: (m.2.tokens ++ .comma ::
          Value.memberTokens (ms ++ [(key, w)])) := by
      cases ms <;> rfl
    rw [List.cons_append, unfolded, ih]
    simp [openMembers]

/-- The tokens behind which these containers are open. A frame holds what is settled of the values
that were read in it. -/
inductive Opened : List Frame → List Token → Prop
  | none : Opened [] []
  | items {stack : List Frame} {ts : List Token} (ws : List Value) : Opened stack ts →
      stack.length + 1 + Value.itemDepth ws ≤ maxDepth →
      Opened (.items (Value.settledItems ws).reverse :: stack)
        (ts ++ .openArray :: openItems ws)
  | members {stack : List Frame} {ts : List Token} (ms : List (String × Value)) (key : String) :
      Opened stack ts → stack.length + 1 + Value.memberDepth ms ≤ maxDepth →
      Opened (.members (Value.settledMembers [] ms) key :: stack)
        (ts ++ .openObject :: (openMembers ms ++ [.string key, .colon]))

/-- The tokens behind which the reader is in a state. -/
inductive Reached : State → List Token → Prop
  | value {stack : List Frame} {ts : List Token} : Opened stack ts → Reached (.value stack) ts
  | firstItem {stack : List Frame} {ts : List Token} : Opened stack ts → stack.length < maxDepth →
      Reached (.firstItem stack) (ts ++ [.openArray])
  | firstKey {stack : List Frame} {ts : List Token} : Opened stack ts → stack.length < maxDepth →
      Reached (.firstKey stack) (ts ++ [.openObject])
  | key {stack : List Frame} {ts : List Token} (ms : List (String × Value)) : Opened stack ts →
      stack.length + 1 + Value.memberDepth ms ≤ maxDepth →
      Reached (.key (Value.settledMembers [] ms) stack) (ts ++ .openObject :: openMembers ms)
  | colon {stack : List Frame} {ts : List Token} (ms : List (String × Value)) (key : String) :
      Opened stack ts → stack.length + 1 + Value.memberDepth ms ≤ maxDepth →
      Reached (.colon (Value.settledMembers [] ms) key stack)
        (ts ++ .openObject :: (openMembers ms ++ [.string key]))
  | complete {stack : List Frame} {ts : List Token} (w : Value) : Opened stack ts →
      stack.length + w.depth ≤ maxDepth → Reached (.complete w.settled stack) (ts ++ w.tokens)

theorem Opened.length_le (h : Opened stack ts) : stack.length ≤ maxDepth := by
  cases h with
  | none => exact Nat.zero_le _
  | items ws _ room => exact Nat.le_of_add_right_le room
  | members ms key _ room => exact Nat.le_of_add_right_le room

theorem Opened.startValue? {state : State} {t : Token} (h : Opened stack ts)
    (starts : startValue? stack t = some state) : Reached state (ts ++ [t]) := by
  have room := h.length_le
  cases t with
  | null =>
    cases starts
    exact .complete .null h room
  | bool b =>
    cases starts
    exact .complete (.bool b) h room
  | number n =>
    cases starts
    exact .complete (.number n) h room
  | string s =>
    cases starts
    exact .complete (.string s) h room
  | openArray =>
    obtain ⟨room, ⟨⟩⟩ := Option.ite_none_right_eq_some.1 starts
    exact .firstItem h room
  | openObject =>
    obtain ⟨room, ⟨⟩⟩ := Option.ite_none_right_eq_some.1 starts
    exact .firstKey h room
  | _ => cases starts

theorem Opened.finish? {state : State} {t : Token} {w : Value} (h : Opened stack ts)
    (fits : stack.length + w.depth ≤ maxDepth) (finishes : finish? w.settled stack t = some state) :
    Reached state (ts ++ w.tokens ++ [t]) := by
  cases h with
  | none => cases t <;> cases finishes
  | @items stack ts ws behind room =>
    have settled : w.settled :: (Value.settledItems ws).reverse =
        (Value.settledItems (ws ++ [w])).reverse := by
      simp [Value.settledItems_eq_map]
    have room : stack.length + 1 + Value.itemDepth (ws ++ [w]) ≤ maxDepth := by
      rw [Value.itemDepth_concat]
      rw [List.length_cons] at fits
      omega
    cases t with
    | comma =>
      cases finishes
      have tokens : ts ++ .openArray :: openItems ws ++ w.tokens ++ [.comma] =
          ts ++ .openArray :: openItems (ws ++ [w]) := by
        simp [openItems]
      rw [settled, tokens]
      exact .value (.items (ws ++ [w]) behind room)
    | closeArray =>
      cases finishes
      have tokens : ts ++ .openArray :: openItems ws ++ w.tokens ++ [.closeArray] =
          ts ++ (Value.array (ws ++ [w])).tokens := by
        simp [Value.tokens, itemTokens_concat]
      rw [settled, List.reverse_reverse, tokens]
      exact .complete (.array (ws ++ [w])) behind (by rw [Value.depth]; omega)
    | _ => cases finishes
  | @members stack ts ms key behind room =>
    have settled : put key w.settled (Value.settledMembers [] ms) =
        Value.settledMembers [] (ms ++ [(key, w)]) := by
      rw [Value.settledMembers_append]
      rfl
    have room : stack.length + 1 + Value.memberDepth (ms ++ [(key, w)]) ≤ maxDepth := by
      rw [Value.memberDepth_concat]
      rw [List.length_cons] at fits
      omega
    cases t with
    | comma =>
      cases finishes
      have tokens : ts ++ .openObject :: (openMembers ms ++ [.string key, .colon]) ++ w.tokens ++
          [.comma] = ts ++ .openObject :: openMembers (ms ++ [(key, w)]) := by
        simp [openMembers]
      rw [settled, tokens]
      exact .key (ms ++ [(key, w)]) behind room
    | closeObject =>
      cases finishes
      have tokens : ts ++ .openObject :: (openMembers ms ++ [.string key, .colon]) ++ w.tokens ++
          [.closeObject] = ts ++ (Value.object (ms ++ [(key, w)])).tokens := by
        simp [Value.tokens, memberTokens_concat]
      rw [settled, tokens]
      exact .complete (.object (ms ++ [(key, w)])) behind (by rw [Value.depth]; omega)
    | _ => cases finishes

theorem Reached.step? {state state' : State} {t : Token} (h : Reached state ts)
    (steps : step? state t = some state') : Reached state' (ts ++ [t]) := by
  cases h with
  | value opened => exact opened.startValue? steps
  | @firstItem stack ts opened room =>
    by_cases closed : t = .closeArray
    · subst closed
      cases steps
      rw [List.append_assoc]
      exact .complete (.array []) opened room
    · have starts : startValue? (.items [] :: stack) t = some state' := by
        rw [← steps]
        cases t with
        | closeArray => exact absurd rfl closed
        | _ => rfl
      exact (Opened.items [] opened room).startValue? starts
  | firstKey opened room =>
    cases t with
    | closeObject =>
      cases steps
      rw [List.append_assoc]
      exact .complete (.object []) opened room
    | string key =>
      cases steps
      rw [List.append_assoc]
      exact .colon [] key opened room
    | _ => cases steps
  | key ms opened room =>
    cases t with
    | string key =>
      cases steps
      rw [List.append_assoc]
      exact .colon ms key opened room
    | _ => cases steps
  | colon ms key opened room =>
    cases t with
    | colon =>
      cases steps
      rw [List.append_assoc, List.cons_append, List.append_assoc]
      exact .value (.members ms key opened room)
    | _ => cases steps
  | complete w opened fits => exact opened.finish? fits steps

theorem Reached.run? {state : State} (h : Reached state ts) (runs : run? state rest = some v) :
    ∃ w : Value, ts ++ rest = w.tokens ∧ w.depth ≤ maxDepth ∧ w.settled = v := by
  induction rest generalizing state ts with
  | nil =>
    cases h with
    | complete w opened fits =>
      cases opened with
      | none =>
        cases runs
        exact ⟨w, List.append_nil _, by simpa using fits, rfl⟩
      | _ => cases runs
    | _ => cases runs
  | cons t rest ih =>
    rw [Reader.run?] at runs
    cases steps : Reader.step? state t with
    | none => simp [steps] at runs
    | some state' =>
      rw [steps] at runs
      simpa using ih (h.step? steps) runs

end Reader

/-! ### Reading a text -/

namespace Value

variable {text : String} {v w : Value}

/-- Without objects, so that there are no members to settle. -/
inductive Unkeyed : Value → Prop
  | null : Unkeyed null
  | bool {b : Bool} : Unkeyed (bool b)
  | number {n : Number} : Unkeyed (number n)
  | string {s : String} : Unkeyed (string s)
  | array {items : List Value} : (∀ v ∈ items, Unkeyed v) → Unkeyed (array items)

theorem Unkeyed.settled (h : v.Unkeyed) : v.settled = v := by
  induction h with
  | @array items _ ih =>
    have same : items.map Value.settled = items := by
      rw [List.map_congr_left ih, List.map_id']
    rw [Value.settled, settledItems_eq_map, same]
  | _ => rfl

/-- Settling does not take objects away. -/
theorem Unkeyed.of_settled (h : v.settled.Unkeyed) : v.Unkeyed := by
  induction v using inductionOn with
  | null => exact .null
  | bool b => exact .bool
  | number n => exact .number
  | string s => exact .string
  | array items ih =>
    rw [Value.settled, settledItems_eq_map] at h
    cases h with
    | array inside => exact .array fun v hv => ih v hv (inside _ (List.mem_map_of_mem hv))
  | object members => cases h

theorem ofTokens?_tokens (w : Value) :
    ofTokens? w.tokens = if w.depth ≤ Reader.maxDepth then some w.settled else none := by
  have read := Reader.reads w [] [] (Nat.zero_le _)
  rw [List.append_nil, List.length_nil, Nat.zero_add] at read
  exact read

/-- A text that stands for a value is read when its containers do not nest too deep. -/
theorem Written.parse? (h : w.Written text) :
    Value.parse? text = if w.depth ≤ Reader.maxDepth then some w.settled else none := by
  rw [Value.parse?, Token.scan?_eq_some_iff.2 h, Option.bind_some, ofTokens?_tokens]

/-- No other text is read. -/
theorem parse?_eq_some_iff : Value.parse? text = some v ↔
    ∃ w : Value, w.Written text ∧ w.depth ≤ Reader.maxDepth ∧ w.settled = v := by
  constructor
  · intro h
    obtain ⟨ts, scanned, read⟩ := Option.bind_eq_some_iff.1 h
    obtain ⟨w, same, fits, settled⟩ := (Reader.Reached.value .none).run? read
    refine ⟨w, ?_, fits, settled⟩
    rw [Written, ← same]
    exact Token.scan?_eq_some_iff.1 scanned
  · rintro ⟨w, written, fits, rfl⟩
    rw [written.parse?, if_pos fits]

theorem Unkeyed.parse?_eq_some_iff (h : v.Unkeyed) :
    Value.parse? text = some v ↔ v.Written text ∧ v.depth ≤ Reader.maxDepth := by
  rw [Value.parse?_eq_some_iff]
  constructor
  · rintro ⟨w, written, fits, rfl⟩
    rw [h.of_settled.settled]
    exact ⟨written, fits⟩
  · rintro ⟨written, fits⟩
    exact ⟨v, written, fits, h.settled⟩

end Value

end Scion.Json
