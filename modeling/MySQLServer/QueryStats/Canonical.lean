import MySQLServer.Lib.Scan

/-! # Canonical texts of queries

The server counts queries by their type: the text of a query in which literals are replaced by `?` and comments are
removed.  `sql_literal_replace` makes this text in one pass over the query.  At each place a few matchers are tried in
a fixed order; some of them look at the one or two characters in front of the place.  While a comment is removed,
`retrieve_client_id` copies the values of its `client_id` annotations into a buffer.

A query is the list of its characters, without the character that ends it.  A scan that looks for a character without
a test for the end can leave the query; the model stops there and says so (`overran`). -/

namespace MySQLServer.QueryStats

open Lib

def queryIdMaxLength : ℕ := 48

/-- `MAX_QUERY_LENGTH`, which is `QUERY_STATS_TYPE_STR_LEN`. -/
def maxQueryLength : ℕ := 4096

def sqlTerm : Char := Char.ofNat 0

/-- A newline. -/
def newlineChar : Char := Char.ofNat 10

/-- A carriage return. -/
def returnChar : Char := Char.ofNat 13

/-- A quote. -/
def quote : Char := Char.ofNat 39

/-- A double quote. -/
def doubleQuote : Char := Char.ofNat 34

def isSpace (c : Char) : Bool := c == ' ' || c == Char.ofNat 9 || c == newlineChar || c == returnChar

def isRelationPredSign (c : Char) : Bool := c == '=' || c == '>' || c == '<'

/-- The characters after which `is_numerics` accepts a numeral. -/
def precedesNumeral (c : Char) : Bool := isRelationPredSign c || isSpace c || c == ',' || c == '('

/-! ### Matchers -/

/-- The text begins with a word, in lower or upper case. -/
def hasWord (word sql : List Char) : Bool := (sql.take word.length).map Char.toLower == word

/-- A word, blanks and an opening character: the length of the match, and the closing character. -/
def listHead (word : List Char) (opening closing : Char) (sql : List Char) : Option (ℕ × Char) :=
  if hasWord word sql then
    let i := word.length + ((sql.drop word.length).takeWhile isSpace).length
    if (sql.drop i).head? = some opening then some (i + 1, closing) else none
  else none

def isInList (sql : List Char) : Option (ℕ × Char) := listHead "in".toList '(' ')' sql

def isValuesList (sql : List Char) : Option (ℕ × Char) := listHead "values".toList '(' ')' sql

def isLikeExpr (sql : List Char) : Option (ℕ × Char) := listHead "like".toList quote quote sql

/-- The three matchers are tried one after another. -/
def isList (sql : List Char) : Option (ℕ × Char) :=
  ((isInList sql).or (isValuesList sql)).or (isLikeExpr sql)

def isComments (sql : List Char) : Bool := sql.head? == some '/' && sql.tail.head? == some '*'

/-- The length of the numeral, or 0.  `before` are the characters in front of the text, the last one
first. -/
def isNumerics (before sql : List Char) : ℕ :=
  match sql with
  | [] => 0
  | c :: rest =>
    if c.isDigit && precedesNumeral (before.getD 0 sqlTerm) then 1 + (rest.takeWhile Char.isDigit).length else 0

/-- The characters after which `is_edges_name_id` accepts a numeral. -/
def edgesBefore (before : List Char) : Bool :=
  before.getD 0 sqlTerm == '_' || (before.getD 0 sqlTerm == 'n' && before.getD 1 sqlTerm == '_')

/-- The length of the numeral, or 0. -/
def isEdgesNameId (before sql : List Char) : ℕ :=
  match sql with
  | [] => 0
  | c :: rest =>
    if c.isDigit && edgesBefore before then
      let digits := rest.takeWhile Char.isDigit
      if (rest.drop digits.length).head? = some '_' then 1 + digits.length else 0
    else 0

def isNegativeNumeric (before sql : List Char) : Bool :=
  sql.head? == some '-' && (sql.tail.headD sqlTerm).isDigit && isSpace (before.getD 0 sqlTerm)

/-! ### Client ids -/

/-- The text behind the first occurrence of a character; nothing if it does not occur, so that the search leaves the
query. -/
def behind (c : Char) (s : List Char) : Option (List Char) :=
  match s.dropWhile (· != c) with
  | [] => none
  | _ :: rest => some rest

/-- Whether an annotation starts here, and the text behind the opening quote of its value, if the
search for it does not leave the query. -/
def isClientId (sql : List Char) : Option (Option (List Char)) :=
  if hasWord "client_id".toList sql then
    let rest := (sql.drop 9).dropWhile isSpace
    if rest.head? = some doubleQuote then some ((behind ':' rest).bind (behind doubleQuote)) else none
  else none

/-- One round of `retrieve_client_id`; `values` are the values read.  A search that leaves the query leaves nothing
to read. -/
def retrieveStep (values : List (List Char)) (s : List Char) : Option (List (List Char) × List Char) :=
  match s with
  | [] => none
  | c :: rest =>
    if c = '*' ∧ rest.head? = some '/' then none
    else
      match isClientId s with
      | none => some (values, rest)
      | some none => some (values, [])
      | some (some p) =>
        if doubleQuote ∈ p then
          some (values ++ [p.takeWhile (· != doubleQuote)], p.dropWhile (· != doubleQuote))
        else some (values, [])

/-- The values of the annotations of a comment, and the text behind it. -/
def retrieveClientId (sql : List Char) : Option (List (List Char) × List Char) :=
  match scan retrieveStep [] sql with
  | (values, '*' :: '/' :: rest) => some (values, rest)
  | _ => none

/-- What `retrieve_client_id` writes for the values: up to `QUERY_ID_MAX_LENGTH + 1` characters of each one, since
`len++` is compared with `QUERY_ID_MAX_LENGTH` by `<=`, one value behind the other. -/
def idText (values : List (List Char)) : List Char := values.flatMap (·.take (queryIdMaxLength + 1))

/-! ### The pass over the query -/

/-- What is found at a place: a numeral, a list or pattern with its head and its content, a comment with the values
of its annotations, the end of a line, or another character. -/
inductive Piece where
  | numeral (digits : List Char)
  | list (head content : List Char)
  | comment (body : List Char) (values : List (List Char))
  | newline (c : Char)
  | char (c : Char)
  deriving DecidableEq

/-- The text that is read. -/
def Piece.source : Piece → List Char
  | .numeral digits => digits
  | .list head content => head ++ content
  | .comment body _ => body
  | .newline c => [c]
  | .char c => [c]

/-- The text that is written. -/
def Piece.text : Piece → List Char
  | .numeral _ => ['?']
  | .list head _ => head ++ ['?']
  | .comment _ _ => []
  | .newline _ => [' ']
  | .char c => [c]

/-- The last four branches of the pass: a negative numeral, a comment, the end of a line, and another character. -/
def otherPiece (before sql : List Char) : Option Piece :=
  if isNegativeNumeric before sql then
    some (.numeral (sql.take (1 + (sql.tail.takeWhile Char.isDigit).length)))
  else if isComments sql then
    (retrieveClientId (sql.drop 2)).map fun r => .comment (sql.take (sql.length - r.2.length)) r.1
  else
    let c := sql.headD sqlTerm
    if c = newlineChar ∨ c = returnChar then some (.newline c) else some (.char c)

/-- The piece at a place; nothing if the scan of a comment leaves the query. -/
def nextPiece (before sql : List Char) : Option Piece :=
  if 0 < isNumerics before sql then some (.numeral (sql.take (isNumerics before sql)))
  else if 0 < isEdgesNameId before sql then some (.numeral (sql.take (isEdgesNameId before sql)))
  else
    match isList sql with
    | some (n, expect) =>
      some (.list (sql.take n) ((sql.drop n).takeWhile fun c => c != expect && c != sqlTerm))
    | none => otherPiece before sql

/-- The variables of the pass: the characters in front of the place, the text written, the string in the buffer for
the client id, the number of bytes of this buffer that have been written, and whether the scan has left the query. -/
structure Canon where
  before : List Char
  qryBuf : List Char
  clientId : List Char
  idBytes : ℕ
  overran : Bool
  deriving DecidableEq

/-- A piece is read.  Each comment with annotations is written to the start of the buffer for the client id. -/
def Canon.put (s : Canon) (p : Piece) : Canon :=
  match p with
  | .comment body values =>
    { s with
      before := body.reverse ++ s.before
      clientId := if values = [] then s.clientId else idText values
      idBytes := if values = [] then s.idBytes else max s.idBytes ((idText values).length + 1) }
  | _ => { s with before := p.source.reverse ++ s.before, qryBuf := s.qryBuf ++ p.text }

/-- The loop ends. -/
def atEnd (sql : List Char) : Bool := sql == [] || sql.head? == some sqlTerm

/-- One round of `sql_literal_replace`. -/
def replaceStep (s : Canon) (sql : List Char) : Option (Canon × List Char) :=
  if atEnd sql then none
  else
    match nextPiece s.before sql with
    | some p => some (s.put p, sql.drop p.source.length)
    | none => some ({ s with overran := true }, [])

/-- `sql_literal_replace`, where `before` are the bytes in front of the query, the last one first. -/
def sqlLiteralReplace (before query : List Char) : Canon :=
  (scan replaceStep ⟨before, [], [], 0, false⟩ query).1

/-! ### The buffers of `track_query_stats` -/

/-- `max_key_len`, a `uint32`. -/
def maxKeyLen (queryLen : ℕ) : ℕ := (queryLen + 3 * queryIdMaxLength + 1) % 2 ^ 32

/-- The size of the buffer for the canonical text, which is on the stack or allocated. -/
def capacity (queryLen : ℕ) : ℕ :=
  if maxQueryLength < maxKeyLen queryLen then maxKeyLen queryLen else maxQueryLength + 1

/-- The number of bytes that `track_query_stats` needs for the canonical text, the suffix `@client_id` and the
terminator. -/
def keyBytes (byClientId : Bool) (s : Canon) : ℕ :=
  let clientId := s.clientId.takeWhile (· != sqlTerm)
  s.qryBuf.length + (if byClientId ∧ clientId ≠ [] then 1 + clientId.length else 0) + 1

end MySQLServer.QueryStats
