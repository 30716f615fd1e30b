import Scion.Yaml.Node
import Scion.Yaml.Scalar

/-!
Reading an indented configuration text. The lines of one document are taken out first. Blocks are
then read by indentation: the entries of a block start in one column, and what belongs to an entry
is indented further. Inside brackets and braces indentation plays no part.
-/

namespace Scion.Yaml

namespace Lines

/-- Lines, ended by a line feed, a carriage return, or both. -/
def split (current : List Char) (afterReturn : Bool) : List Char → List (List Char)
  | [] => [current.reverse]
  | c :: rest =>
    if c = '\n' then
      if afterReturn then split current false rest else current.reverse :: split [] false rest
    else if c = '\r' then current.reverse :: split [] true rest
    else split (c :: current) false rest

/-- What follows a mark of three characters at the start of a line. -/
def afterMark? (mark : Char) : List Char → Option (List Char)
  | a :: b :: c :: rest =>
    if a = mark && b = mark && c = mark && endsWord rest then some rest else none
  | _ => none

/-- Nothing but spaces and perhaps a comment. -/
def isVoid (line : List Char) : Bool :=
  match line.dropWhile (· = ' ') with
  | [] => true
  | c :: _ => c = '#'

/-- The lines up to the end mark of the document; only void lines may follow that. -/
def untilEnd? : List (List Char) → Option (List (List Char))
  | [] => some []
  | line :: rest =>
    if (afterMark? '-' line).isSome then none
    else
      match afterMark? '.' line with
      | some after =>
        if isVoid after && rest.all fun l => isVoid l || (afterMark? '.' l).isSome then some []
        else none
      | none => (untilEnd? rest).map (line :: ·)

def isDirective : List Char → Bool
  | '%' :: _ => true
  | _ => false

/-- Where the only document starts: directly, or behind its start mark, which has to follow when
there are directives. -/
def document? (directed : Bool) : List (List Char) → Option (Cursor × Bool)
  | [] => if directed then none else some (⟨0, []⟩, true)
  | line :: rest =>
    match afterMark? '-' line with
    | some after => do
      let more ← untilEnd? rest
      return (⟨3, ['\n'].intercalate (after :: more)⟩, false)
    | none =>
      if isVoid line then document? directed rest
      else if isDirective line then document? true rest
      else if directed then none
      else do
        let lines ← untilEnd? (line :: rest)
        return (⟨0, ['\n'].intercalate lines⟩, true)

end Lines

namespace Cursor

/-- Skips blanks, comments and line breaks, and tells whether a new line was begun. Where a block may
start, which is the case on every new line, tabs are refused. -/
def skip? (block inComment fresh : Bool) (column : Nat) : List Char → Option (Cursor × Bool)
  | [] => some (⟨column, []⟩, fresh)
  | c :: rest =>
    if c = '\n' then skip? true false true 0 rest
    else if inComment || c = '#' then skip? block true fresh (column + 1) rest
    else if c = ' ' then skip? block false fresh (column + 1) rest
    else if c = '\t' then if block then none else skip? block false fresh (column + 1) rest
    else some (⟨column, c :: rest⟩, fresh)

/-- The next place with content, seen from the midst of a line. -/
def content? (cur : Cursor) (block : Bool) : Option (Cursor × Bool) :=
  skip? block false false cur.column cur.rest

/-- Inside brackets tabs are blanks like any other. -/
def flowContent (inComment : Bool) : List Char → List Char
  | [] => []
  | c :: rest =>
    if c = '\n' then flowContent false rest
    else if inComment || c = '#' then flowContent true rest
    else if isBlank c then flowContent false rest
    else c :: rest

/-- The cursor behind some text on the same line. -/
def move (cur : Cursor) (rest : List Char) : Cursor :=
  ⟨cur.column + (cur.rest.length - rest.length), rest⟩

end Cursor

def text (cs : List Char) : String := String.ofList cs

namespace Flow

mutual

/-- A node inside brackets or braces, or one of them. -/
def node? : Nat → List Char → Option (Node × List Char)
  | 0, _ => none
  | fuel + 1, cs =>
    match cs with
    | '[' :: rest => do
      let (items, rest) ← items? fuel (Cursor.flowContent false rest)
      return (.sequence items, rest)
    | '\x7b' :: rest => do
      let (entries, rest) ← entries? fuel (Cursor.flowContent false rest)
      return (.mapping entries, rest)
    | '"' :: _ | '\'' :: _ =>
      (Scalar.quoted? cs).map fun (s, rest) => (.scalar false (text s), rest)
    | _ =>
      if Scalar.canStartPlain true cs then do
        let (first, rest) := Scalar.plainLine true [] cs
        let (more, rest) ← Scalar.plainMore true 0 rest.length.succ rest
        if rest.head? == some ':' && !endsWord rest.tail then none
        else return (.scalar true (text (first ++ more)), rest)
      else none

/-- The value after a colon; nothing may stand there. -/
def value? : Nat → List Char → Option (Node × List Char)
  | 0, _ => none
  | fuel + 1, cs =>
    match Cursor.flowContent false cs with
    | [] => none
    | c :: rest =>
      if c = ',' || c = ']' || c = '\x7d' then some (.empty, c :: rest) else node? fuel (c :: rest)

def items? : Nat → List Char → Option (List Node × List Char)
  | 0, _ => none
  | _ + 1, ']' :: rest => some ([], rest)
  | fuel + 1, cs => do
    let (item, rest) ← node? fuel cs
    let (item, rest) ← match Cursor.flowContent false rest with
      | ':' :: rest => do
        let (value, rest) ← value? fuel rest
        pure (Node.mapping [(item, value)], Cursor.flowContent false rest)
      | rest => pure (item, rest)
    match rest with
    | ']' :: rest => return ([item], rest)
    | ',' :: rest => do
      let (items, rest) ← items? fuel (Cursor.flowContent false rest)
      return (item :: items, rest)
    | _ => none

def entries? : Nat → List Char → Option (List (Node × Node) × List Char)
  | 0, _ => none
  | _ + 1, '\x7d' :: rest => some ([], rest)
  | fuel + 1, cs => do
    let (key, rest) ← node? fuel cs
    let (value, rest) ← match Cursor.flowContent false rest with
      | ':' :: rest => do
        let (value, rest) ← value? fuel rest
        pure (value, Cursor.flowContent false rest)
      | rest => pure (Node.empty, rest)
    match rest with
    | '\x7d' :: rest => return ([(key, value)], rest)
    | ',' :: rest => do
      let (entries, rest) ← entries? fuel (Cursor.flowContent false rest)
      return ((key, value) :: entries, rest)
    | _ => none

end

end Flow

namespace Block

/-- A colon that ends a key. -/
def afterColon? (cs : List Char) : Option (List Char) :=
  match cs.dropWhile isBlank with
  | ':' :: rest => if endsWord rest then some rest else none
  | _ => none

/-- A key on one line, and the place behind its colon. -/
def key? (cur : Cursor) : Option (Node × Cursor) :=
  match cur.rest with
  | '"' :: _ | '\'' :: _ => do
    let (s, rest) ← Scalar.quoted? cur.rest
    let line := cur.rest.takeWhile (· ≠ '\n')
    let after ← afterColon? rest
    if cur.rest.length ≤ line.length + after.length then
      return (.scalar false (text s), cur.move after)
    else none
  | _ =>
    if Scalar.canStartPlain false cur.rest then do
      let (s, rest) := Scalar.plainLine false [] cur.rest
      let after ← afterColon? rest
      return (.scalar true (text s), cur.move after)
    else none

def isDash : List Char → Bool
  | '-' :: rest => endsWord rest
  | _ => false

/-- A scalar or bracketed node that is no key; further lines are indented by at least `least`. -/
def leaf? (least : Nat) (cur : Cursor) : Option (Node × Cursor) :=
  match cur.rest with
  | '[' :: _ | '\x7b' :: _ =>
    (Flow.node? cur.rest.length.succ cur.rest).map fun (n, rest) => (n, cur.move rest)
  | '"' :: _ | '\'' :: _ =>
    (Scalar.quoted? cur.rest).map fun (s, rest) => (.scalar false (text s), cur.move rest)
  | _ =>
    if Scalar.canStartPlain false cur.rest then do
      let (first, rest) := Scalar.plainLine false [] cur.rest
      let (more, rest) ← Scalar.plainMore false least rest.length.succ rest
      return (.scalar true (text (first ++ more)), cur.move rest)
    else none

mutual

/-- A node whose lines are indented by at least `least`. Blocks start only where `block` allows, at
the start of a line or behind a dash. -/
def node? (least : Nat) (block : Bool) : Nat → Cursor → Option (Node × Cursor)
  | 0, _ => none
  | fuel + 1, cur =>
    if isDash cur.rest then
      if block then do
        let (items, cur) ← items? cur.column fuel cur
        return (.sequence items, cur)
      else none
    else
      match key? cur with
      | some _ =>
        if block then do
          let (entries, cur) ← entries? cur.column fuel cur
          return (.mapping entries, cur)
        else none
      | none => leaf? least cur
termination_by structural fuel => fuel

/-- What belongs to an entry whose block starts in a column: the rest of the line, or the lines after
it that are indented further. -/
def value? (column : Nat) (dashes block : Bool) : Nat → Cursor → Option (Node × Cursor)
  | 0, _ => none
  | fuel + 1, cur => do
    let (next, fresh) ← cur.content? block
    if next.rest.isEmpty then return (.empty, next)
    else if !fresh then node? (column + 1) block fuel next
    else if column < next.column then node? (column + 1) true fuel next
    else if dashes && next.column = column && isDash next.rest then
      node? column true fuel next
    else return (.empty, cur)
termination_by structural fuel => fuel

/-- The entries of a sequence that start in a column. -/
def items? (column : Nat) : Nat → Cursor → Option (List Node × Cursor)
  | 0, _ => none
  | fuel + 1, cur => do
    let (item, cur) ← value? column false true fuel ⟨cur.column + 1, cur.rest.tail⟩
    let (next, fresh) ← cur.content? false
    if next.rest.isEmpty then return ([item], next)
    else if !fresh || column < next.column then none
    else if next.column = column && isDash next.rest then
      let (items, cur) ← items? column fuel next
      return (item :: items, cur)
    else return ([item], cur)
termination_by structural fuel => fuel

/-- The entries of a mapping that start in a column. -/
def entries? (column : Nat) : Nat → Cursor → Option (List (Node × Node) × Cursor)
  | 0, _ => none
  | fuel + 1, cur => do
    let (key, cur) ← key? cur
    let (value, cur) ← value? column true false fuel cur
    let (next, fresh) ← cur.content? false
    if next.rest.isEmpty then return ([(key, value)], next)
    else if !fresh || column < next.column then none
    else if next.column = column then
      let (entries, cur) ← entries? column fuel next
      return ((key, value) :: entries, cur)
    else return ([(key, value)], cur)
termination_by structural fuel => fuel

end

end Block

/-- Control characters and two noncharacters have no place in a text. -/
def isAllowed (c : Char) : Bool :=
  c = '\t' || c = '\n' || c = '\r' || (0x20 ≤ c.toNat && c.toNat ≤ 0x7e) || c.toNat = 0x85
    || (0xa0 ≤ c.toNat && c.toNat ≠ 0xfffe && c.toNat ≠ 0xffff)

/-- The node of a whole text, which may begin with a byte order mark. -/
def parse? (source : String) : Option Node := do
  let cs := match source.toList with
    | '\ufeff' :: rest => rest
    | cs => cs
  if !cs.all isAllowed then failure
  let (start, block) ← Lines.document? false (Lines.split [] false cs)
  let (first, fresh) ← Cursor.skip? block false block start.column start.rest
  if first.rest.isEmpty then return .empty
  else
    let (node, cur) ← Block.node? 0 fresh (2 * cs.length + 8) first
    let (last, _) ← cur.content? false
    if last.rest.isEmpty then return node else none

end Scion.Yaml
