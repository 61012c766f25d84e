import LayeredEnv.Pattern.Regex.Footprint

namespace LayeredEnv.Regex

structure Flags where
  ignoreCase : Bool := false
  multiLine : Bool := false
  dotAll : Bool := false
  swapGreed : Bool := false
  unicode : Bool := true
  crlf : Bool := false
  verbose : Bool := false

namespace Flags

def switch? (flags : Flags) (letter : Char) (on : Bool) : Option Flags :=
  match letter with
  | 'i' => some { flags with ignoreCase := on }
  | 'm' => some { flags with multiLine := on }
  | 's' => some { flags with dotAll := on }
  | 'U' => some { flags with swapGreed := on }
  | 'u' => some { flags with unicode := on }
  | 'R' => some { flags with crlf := on }
  | 'x' => some { flags with verbose := on }
  | _ => none

def fold (flags : Flags) (chars : CharClass) : CharClass :=
  if !flags.ignoreCase then chars
  else if flags.unicode then chars.fold
  else chars.foldAscii

/-- The complement, which only exists where sets hold all of Unicode. -/
def negate? (flags : Flags) (chars : CharClass) : Option CharClass :=
  if flags.unicode then some chars.complement else none

end Flags

def skipVerbose : (inComment : Bool) → List Char → List Char
  | _, [] => []
  | true, c :: cs => skipVerbose (c != '\n') cs
  | false, c :: cs =>
    if Text.isWhitespace c then skipVerbose false cs
    else if c == '#' then skipVerbose true cs
    else c :: cs

def Flags.skip (flags : Flags) (cs : List Char) : List Char :=
  if flags.verbose then skipVerbose false cs else cs

/-- The next character, in verbose text the first one that is no white space and does not start a
comment; where only a comment follows, the next character as it is. In this look ahead a comment
does not end with its line: what counts is what follows its sign and white space. -/
def Flags.peek? (flags : Flags) (cs : List Char) : Option Char :=
  if !flags.verbose then cs.head?
  else
    match cs.dropWhile Text.isWhitespace with
    | '#' :: comment => (comment.dropWhile Text.isWhitespace).head?.or cs.head?
    | rest => rest.head?.or cs.head?

inductive Atom where
  | literal (c : Char)
  | set (chars : CharClass)
  | look (condition : Look)

def hexDigit? (c : Char) : Option Nat :=
  if Text.isDigit c then some (c.toNat - 48)
  else if 'a' ≤ c && c ≤ 'f' then some (c.toNat - 87)
  else if 'A' ≤ c && c ≤ 'F' then some (c.toNat - 55)
  else none

def scalar? (n : Nat) : Option Char :=
  if (Char.ofNat n).toNat == n then some (.ofNat n) else none

def hexValue? (digits : List Char) : Option Nat :=
  digits.foldlM (fun n c => (hexDigit? c).map (16 * n + ·)) 0

def hexDigits (flags : Flags) : (count : Nat) → List Char → Option (List Char × List Char)
  | 0, cs => some ([], cs)
  | count + 1, c :: cs => do
    let _ ← hexDigit? c
    let (digits, rest) ← hexDigits flags count (flags.skip cs)
    return (c :: digits, rest)
  | _ + 1, [] => none

def bracedText (flags : Flags) : (fuel : Nat) → List Char → Option (List Char × List Char)
  | 0, _ => none
  | fuel + 1, cs =>
    match flags.skip cs with
    | [] => none
    | '}' :: rest => some ([], rest)
    | c :: rest => do
      let (text, rest) ← bracedText flags fuel rest
      return (c :: text, rest)

/-- A code point after `\x`, `\u` or `\U`: two, four or eight digits, or any number of them
between braces. Two digits mean a byte, which has to be ASCII where sets are not Unicode's. -/
def hexEscape (flags : Flags) (count : Nat) (cs : List Char) : Option (Atom × List Char) :=
  match flags.skip cs with
  | [] => none
  | '{' :: rest => do
    let (digits, rest) ← bracedText flags (rest.length + 1) rest
    if digits.isEmpty then none
    let c ← scalar? (← hexValue? digits)
    return (.literal c, flags.skip rest)
  | cs => do
    let (digits, rest) ← hexDigits flags count cs
    let c ← scalar? (← hexValue? digits)
    if count == 2 && !flags.unicode && '\x7f' < c then none
    return (.literal c, rest)

def splitProperty (text : List Char) : Option (List Char × Bool × List Char) :=
  let rec unequal : List Char → Option (List Char × List Char)
    | '!' :: '=' :: rest => some ([], rest)
    | c :: rest => (unequal rest).map fun (before, after) => (c :: before, after)
    | [] => none
  match unequal text with
  | some (name, value) => some (name, true, value)
  | none =>
    match (Text.splitAtFirst ':' text).or (Text.splitAtFirst '=' text) with
    | some (name, value) => some (name, false, value)
    | none => none

def propertyClass? (text : List Char) : Option (CharClass × Bool) :=
  match splitProperty text with
  | some (name, unequal, value) =>
    (CharClass.propertyValue? (CharClass.normalizeName name) (CharClass.normalizeName value)).map
      (·, unequal)
  | none => (CharClass.property? (CharClass.normalizeName text)).map (·, false)

def propertyEscape (flags : Flags) (negated : Bool) (cs : List Char) :
    Option (Atom × List Char) := do
  let (text, rest) ← match flags.skip cs with
    | [] => none
    | '{' :: rest => bracedText flags (rest.length + 1) rest
    | c :: rest => if c == '\\' then none else some ([c], flags.skip rest)
  if !flags.unicode then none
  let (chars, unequal) ← propertyClass? text
  let chars := flags.fold chars
  return (.set (if negated != unequal then chars.complement else chars), rest)

def letterClass? (flags : Flags) (letter : Char) : Option CharClass :=
  match letter with
  | 'd' => some (if flags.unicode then CharClass.digit else CharClass.asciiDigit)
  | 's' => some (if flags.unicode then CharClass.space else CharClass.asciiSpace)
  | 'w' => some (if flags.unicode then CharClass.word else CharClass.asciiWord)
  | 'D' => flags.negate? CharClass.digit
  | 'S' => flags.negate? CharClass.space
  | 'W' => flags.negate? CharClass.word
  | _ => none

/-- The special word boundary named between braces after `\b`. A brace that no letter or hyphen
follows begins a repetition count instead. -/
def namedBoundary (flags : Flags) (cs : List Char) : Option (Look × List Char) :=
  let ascii := !flags.unicode
  let isNameLetter (c : Char) : Bool := Text.isUpper c || Text.isLower c || c == '-'
  match cs with
  | '{' :: inner =>
    match flags.skip inner with
    | [] => none
    | c :: _ =>
      if !isNameLetter c then some (.boundary ascii, cs)
      else do
        let (name, rest) ← bracedText flags (inner.length + 1) inner
        match String.ofList name with
        | "start" => some (.wordStart ascii, rest)
        | "end" => some (.wordEnd ascii, rest)
        | "start-half" => some (.wordStartHalf ascii, rest)
        | "end-half" => some (.wordEndHalf ascii, rest)
        | _ => none
  | _ => some (.boundary ascii, cs)

/-- What follows a backslash. Every ASCII character that is no letter or digit and no angle
bracket may be escaped to stand for itself. -/
def escape (flags : Flags) : List Char → Option (Atom × List Char)
  | [] => none
  | c :: rest =>
    let ascii := !flags.unicode
    match c with
    | 'x' => hexEscape flags 2 rest
    | 'u' => hexEscape flags 4 rest
    | 'U' => hexEscape flags 8 rest
    | 'p' => propertyEscape flags false rest
    | 'P' => propertyEscape flags true rest
    | 'a' => some (.literal '\x07', rest)
    | 'f' => some (.literal '\x0c', rest)
    | 't' => some (.literal '\t', rest)
    | 'n' => some (.literal '\n', rest)
    | 'r' => some (.literal '\r', rest)
    | 'v' => some (.literal '\x0b', rest)
    | 'A' => some (.look .textStart, rest)
    | 'z' => some (.look .textEnd, rest)
    | 'b' => (namedBoundary flags rest).map fun (look, rest) => (.look look, rest)
    | 'B' => some (.look (.noBoundary ascii), rest)
    | '<' => some (.look (.wordStart ascii), rest)
    | '>' => some (.look (.wordEnd ascii), rest)
    | c =>
      match letterClass? flags c with
      | some chars => some (.set chars, rest)
      | none => if c ≤ '\x7f' && !Text.isAlphanumeric c then some (.literal c, rest) else none

structure Nested (α : Type) where
  value : α
  depth : Nat

inductive SetOperator where
  | intersection
  | difference
  | symmetricDifference

def SetOperator.apply : SetOperator → CharClass → CharClass → CharClass
  | intersection => Unicode.RangeTable.intersection
  | difference => Unicode.RangeTable.difference
  | symmetricDifference => Unicode.RangeTable.symmetricDifference

/-- A bracket expression being read: its negation, the left side of an operator, and the items
since, last first. -/
structure OpenBracket where
  negated : Bool
  left : Option (SetOperator × Nested CharClass) := none
  items : List (Nested CharClass) := []

namespace OpenBracket

def push (bracket : OpenBracket) (chars : CharClass) (depth : Nat) : OpenBracket :=
  { bracket with items := ⟨chars, depth⟩ :: bracket.items }

def content (flags : Flags) (bracket : OpenBracket) : Nested CharClass :=
  let depth := bracket.items.foldl (fun depth item => max depth item.depth) 0
  let items : Nested CharClass :=
    ⟨.unions (bracket.items.map (·.value)), if bracket.items.length ≤ 1 then depth else depth + 1⟩
  match bracket.left with
  | none => items
  | some (operator, left) =>
    ⟨operator.apply (flags.fold left.value) (flags.fold items.value),
      max left.depth items.depth + 1⟩

def operate (flags : Flags) (bracket : OpenBracket) (operator : SetOperator) : OpenBracket :=
  { bracket with left := some (operator, bracket.content flags), items := [] }

def close? (flags : Flags) (bracket : OpenBracket) : Option (Nested CharClass) := do
  let content := bracket.content flags
  let chars := flags.fold content.value
  let chars ← if bracket.negated then flags.negate? chars else some chars
  return ⟨chars, content.depth + 1⟩

end OpenBracket

def classAtom (flags : Flags) : List Char → Option (Atom × List Char)
  | [] => none
  | '\\' :: rest => escape flags rest
  | c :: rest => some (.literal c, rest)

def literalInClass? (flags : Flags) : Atom → Option Char
  | .literal c => if flags.unicode || c ≤ '\x7f' then some c else none
  | _ => none

/-- An item or a range. A hyphen before a closing bracket or another hyphen makes no range. -/
def classRange (flags : Flags) (cs : List Char) : Option (CharClass × List Char) := do
  let (first, rest) ← classAtom flags cs
  let alone : Option (CharClass × List Char) := match first with
    | .set chars => some (chars, rest)
    | .look _ => none
    | .literal _ => (literalInClass? flags first).map fun c => (.single c, rest)
  match flags.skip rest with
  | [] => none
  | '-' :: more =>
    match flags.peek? more with
    | none => none
    | some c =>
      if c == ']' || c == '-' then alone
      else do
        let (last, rest) ← classAtom flags (flags.skip more)
        let low ← literalInClass? flags first
        let high ← literalInClass? flags last
        if low ≤ high then some (.range low high, rest) else none
  | _ => alone

def posixClass? (flags : Flags) : List Char → Option (Option CharClass × List Char)
  | ':' :: rest => do
    let (negated, rest) := match rest with
      | '^' :: rest => (true, rest)
      | _ => (false, rest)
    let (name, rest) ← Text.splitAtFirst ':' rest
    match rest with
    | ']' :: rest =>
      let chars := flags.fold (← CharClass.posix? (.ofList name))
      return (if negated then flags.negate? chars else some chars, rest)
    | _ => none
  | _ => none

def leadingHyphens (flags : Flags) : (fuel : Nat) → OpenBracket → List Char →
    OpenBracket × List Char
  | fuel + 1, bracket, '-' :: rest =>
    leadingHyphens flags fuel (bracket.push (.single '-') 0) (flags.skip rest)
  | _, bracket, cs => (bracket, cs)

/-- The start of a bracket expression whose `[` was read: its negation, then hyphens or a closing
bracket that stand for themselves. -/
def openBracket (flags : Flags) (cs : List Char) : OpenBracket × List Char :=
  let cs := flags.skip cs
  let (negated, cs) := match cs with
    | '^' :: rest => (true, flags.skip rest)
    | _ => (false, cs)
  let (bracket, cs) := leadingHyphens flags cs.length { negated } cs
  match bracket.items, cs with
  | [], ']' :: rest => (bracket.push (.single ']') 0, flags.skip rest)
  | _, _ => (bracket, cs)

/-- Reads a bracket expression up to its closing bracket, inner ones included. Each turn takes a
character, so that their number is fuel enough. -/
def bracketItems (flags : Flags) : (fuel : Nat) → (outer : List OpenBracket) → OpenBracket →
    List Char → Option (Nested CharClass × List Char)
  | 0, _, _, _ => none
  | fuel + 1, outer, bracket, cs =>
    match flags.skip cs with
    | [] => none
    | '[' :: rest =>
      match posixClass? flags rest with
      | some (chars, rest) =>
        chars.bind fun chars => bracketItems flags fuel outer (bracket.push chars 0) rest
      | none =>
        let (inner, rest) := openBracket flags rest
        bracketItems flags fuel (bracket :: outer) inner rest
    | ']' :: rest =>
      (bracket.close? flags).bind fun content =>
        match outer with
        | [] => some (content, rest)
        | parent :: outer =>
          bracketItems flags fuel outer (parent.push content.value content.depth) rest
    | '&' :: '&' :: rest => bracketItems flags fuel outer (bracket.operate flags .intersection) rest
    | '-' :: '-' :: rest => bracketItems flags fuel outer (bracket.operate flags .difference) rest
    | '~' :: '~' :: rest =>
      bracketItems flags fuel outer (bracket.operate flags .symmetricDifference) rest
    | cs =>
      (classRange flags cs).bind fun (chars, rest) =>
        bracketItems flags fuel outer (bracket.push chars 0) rest

def bracketClass (flags : Flags) (cs : List Char) : Option (Nested CharClass × List Char) :=
  let (bracket, rest) := openBracket flags cs
  bracketItems flags (cs.length + 1) [] bracket rest

/-- An element of a sequence. A change of flags is one that cannot be repeated. -/
inductive Item where
  | expr (body : Nested Expr)
  | flags

def sequence (items : List Item) : Nested Expr :=
  let bodies := items.map fun
    | .expr body => body
    | .flags => ⟨.empty, 0⟩
  let depth := bodies.foldl (fun depth body => max depth body.depth) 0
  ⟨.concat (bodies.reverse.map (·.value)), if bodies.length ≤ 1 then depth else depth + 1⟩

def alternatives (last : Nested Expr) (before : List (Nested Expr)) : Nested Expr :=
  match before with
  | [] => last
  | _ =>
    let depth := before.foldl (fun depth branch => max depth branch.depth) last.depth
    ⟨.alternatives ((last :: before).reverse.map (·.value)), depth + 1⟩

inductive GroupKind where
  | capturing (index : Nat) (name : Option String)
  | plain

structure OpenGroup where
  kind : GroupKind
  flags : Flags
  items : List Item
  branches : List (Nested Expr)

/-- What has been read of a regular expression: the current sequence and the branches before it,
last first, the groups around them, and the names and number of all groups. -/
structure Progress where
  flags : Flags := {}
  items : List Item := []
  branches : List (Nested Expr) := []
  groups : List OpenGroup := []
  names : List String := []
  count : Nat := 0

namespace Progress

def pushExpr (state : Progress) (expr : Expr) (depth : Nat) : Progress :=
  { state with items := .expr ⟨expr, depth⟩ :: state.items }

def pushAtom (state : Progress) : Atom → Progress
  | .literal c => state.pushExpr (.ofSet (state.flags.fold (.single c))) 0
  | .set chars => state.pushExpr (.ofSet chars) 0
  | .look condition => state.pushExpr (.look condition) 0

def body (state : Progress) : Nested Expr :=
  alternatives (sequence state.items) state.branches

def enter (state : Progress) (kind : GroupKind) (flags : Flags) : Progress :=
  { state with
    groups := ⟨kind, state.flags, state.items, state.branches⟩ :: state.groups
    flags, items := [], branches := [] }

def leave? (state : Progress) : Option Progress :=
  match state.groups with
  | [] => none
  | group :: groups =>
    let body := state.body
    let expr := match group.kind with
      | .capturing index name => .group index name body.value
      | .plain => body.value
    some { state with
      groups, flags := group.flags, branches := group.branches
      items := .expr ⟨expr, body.depth + 1⟩ :: group.items }

def repeat? (state : Progress) (least : Nat) (most : Option Nat) (lazy : Bool) :
    Option Progress :=
  match state.items with
  | .expr body :: items =>
    some { state with
      items := .expr ⟨.repeated least most (lazy == state.flags.swapGreed) body.value,
        body.depth + 1⟩ :: items }
  | _ => none

end Progress

def laziness : List Char → Bool × List Char
  | '?' :: rest => (true, rest)
  | cs => (false, cs)

/-- A repetition count, below 2 to the 32nd, with white space around it. -/
def repetitionCount (flags : Flags) (cs : List Char) : Option Nat × List Char :=
  let rec digits : (fuel : Nat) → List Char → List Char × List Char
    | fuel + 1, c :: cs =>
      if Text.isDigit c then
        let (more, rest) := digits fuel (flags.skip cs)
        (c :: more, rest)
      else ([], c :: cs)
    | _, cs => ([], cs)
  let (text, rest) := digits cs.length (cs.dropWhile Text.isWhitespace)
  let value := text.foldl (fun n c => 10 * n + (c.toNat - 48)) 0
  (if text.isEmpty || 4294967296 ≤ value then none else some value,
    flags.skip (rest.dropWhile Text.isWhitespace))

def repetitionRange (flags : Flags) (cs : List Char) :
    Option (Nat × Option Nat × List Char) := do
  let (least, rest) := repetitionCount flags (flags.skip cs)
  let least ← least
  match rest with
  | '}' :: rest => return (least, some least, rest)
  | ',' :: rest =>
    match flags.skip rest with
    | '}' :: rest => return (least, none, rest)
    | rest =>
      let (most, rest) := repetitionCount flags rest
      let most ← most
      match rest with
      | '}' :: rest => if least ≤ most then return (least, some most, rest) else none
      | _ => none
  | _ => none

def isGroupNameStart (c : Char) : Bool := c == '_' || CharClass.alphabetic.contains c

def isGroupNameChar (c : Char) : Bool :=
  isGroupNameStart c || CharClass.numeric.contains c || c == '.' || c == '[' || c == ']'

def groupName (cs : List Char) : Option (String × List Char) := do
  let (name, rest) ← Text.splitAtFirst '>' cs
  match name with
  | [] => none
  | c :: more =>
    if isGroupNameStart c && more.all isGroupNameChar then some (.ofList name, rest) else none

/-- Flags up to a colon or a closing parenthesis, each at most once and none missing after the
minus sign; the last part is the terminator. -/
def readFlags (flags : Flags) : (seen : List Char) → (on : Bool) → List Char →
    Option (Flags × Bool × Char × List Char)
  | _, _, [] => none
  | seen, on, c :: rest =>
    if c == ':' || c == ')' then
      if seen.head? == some '-' then none else some (flags, seen.isEmpty, c, rest)
    else if seen.contains c then none
    else if c == '-' then readFlags flags (c :: seen) false rest
    else (flags.switch? c on).bind fun flags => readFlags flags (c :: seen) on rest

namespace Progress

def enterNamed? (state : Progress) (cs : List Char) : Option (Progress × List Char) := do
  let (name, rest) ← groupName cs
  if state.names.contains name then none
  let state := { state with names := name :: state.names, count := state.count + 1 }
  return (state.enter (.capturing state.count name) state.flags, rest)

def open? (state : Progress) (cs : List Char) : Option (Progress × List Char) :=
  match state.flags.skip cs with
  | '?' :: '=' :: _ | '?' :: '!' :: _ | '?' :: '<' :: '=' :: _ | '?' :: '<' :: '!' :: _ => none
  | '?' :: 'P' :: '<' :: rest => state.enterNamed? rest
  | '?' :: '<' :: rest => state.enterNamed? rest
  | '?' :: rest => do
    let (flags, isEmpty, terminator, rest) ← readFlags state.flags [] true rest
    if terminator == ':' then return (state.enter .plain flags, rest)
    else if isEmpty then none
    else return ({ state with flags, items := .flags :: state.items }, rest)
  | rest =>
    let state := { state with count := state.count + 1 }
    some (state.enter (.capturing state.count none) state.flags, rest)

def dot? (flags : Flags) : Option CharClass :=
  if !flags.unicode then none
  else if flags.dotAll then some CharClass.any
  else if flags.crlf then some (CharClass.ofChars "\r\n").complement
  else some (Unicode.RangeTable.single '\n').complement

def step? (state : Progress) (c : Char) (rest : List Char) : Option (Progress × List Char) :=
  let flags := state.flags
  match c with
  | '(' => state.open? rest
  | ')' => state.leave?.map (·, rest)
  | '|' =>
    some ({ state with branches := sequence state.items :: state.branches, items := [] }, rest)
  | '[' => (bracketClass flags rest).map fun (chars, rest) =>
      (state.pushExpr (.ofSet chars.value) chars.depth, rest)
  | '?' =>
    let (lazy, rest) := laziness rest
    (state.repeat? 0 (some 1) lazy).map (·, rest)
  | '*' =>
    let (lazy, rest) := laziness rest
    (state.repeat? 0 none lazy).map (·, rest)
  | '+' =>
    let (lazy, rest) := laziness rest
    (state.repeat? 1 none lazy).map (·, rest)
  | '{' => do
    let (least, most, rest) ← repetitionRange flags rest
    let (lazy, rest) := laziness (flags.skip rest)
    return (← state.repeat? least most lazy, rest)
  | '\\' => (escape flags rest).map fun (atom, rest) => (state.pushAtom atom, rest)
  | '.' => (dot? flags).map fun chars => (state.pushExpr (.ofSet chars) 0, rest)
  | '^' =>
    some (state.pushExpr (.look (if flags.multiLine then .lineStart flags.crlf else .textStart)) 0,
      rest)
  | '$' =>
    some (state.pushExpr (.look (if flags.multiLine then .lineEnd flags.crlf else .textEnd)) 0,
      rest)
  | c => some (state.pushAtom (.literal c), rest)

/-- Reads all of a text. Each step takes a character, so that their number is fuel enough. -/
def read? : (fuel : Nat) → Progress → List Char → Option Progress
  | 0, _, _ => none
  | fuel + 1, state, cs =>
    match state.flags.skip cs with
    | [] => some state
    | c :: rest => (state.step? c rest).bind fun (state, rest) => read? fuel state rest

end Progress

def depthLimit : Nat := 250

def Expr.parse? (text : List Char) : Option Expr := do
  let state ← Progress.read? (text.length + 1) {} text
  if !state.groups.isEmpty then none
  let body := state.body
  if depthLimit < body.depth || !body.value.fits then none
  return body.value

end LayeredEnv.Regex
