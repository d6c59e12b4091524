import MySQLServer.QueryStats.Pieces

/-! # The buffers for the canonical text and the client id

The canonical text is written to a buffer with room for the query and three client ids.  A piece is written shorter
than it is read, or as long, except for an empty list or pattern, which grows by one byte.  `keyBytes_le_iff` says
when the text, the suffix with the client id and the terminator fit.

The client id is written to a buffer of `QUERY_ID_MAX_LENGTH + 1` bytes.  Each comment is written to its start, and
the annotations of a comment one behind the other.  `clientId_bounded_iff` says when they fit and the buffer ends up
with the value of one annotation. -/

namespace MySQLServer.QueryStats

open Lib List

/-! ### The length of the canonical text -/

/-- An empty list or pattern, which is written one byte longer than it is read. -/
def Piece.growth : Piece → ℕ
  | .list _ content => if content = [] then 1 else 0
  | _ => 0

/-- By how much a piece is written shorter than it is read. -/
def Piece.saving : Piece → ℕ
  | .numeral digits => digits.length - 1
  | .list _ content => content.length - 1
  | .comment body _ => body.length
  | _ => 0

/-- The number of empty lists and patterns. -/
def growth (ps : List Piece) : ℕ := (ps.map Piece.growth).sum

/-- The number of bytes saved. -/
def saving (ps : List Piece) : ℕ := (ps.map Piece.saving).sum

theorem Piece.length_text {sql : List Char} {p : Piece} (h : IsPiece sql p) :
    p.text.length + p.saving = p.source.length + p.growth := by
  have hp := List.length_pos_iff.mpr h.source.1
  cases p with
  | numeral digits =>
    rw [Piece.source] at hp
    simp only [Piece.text, Piece.saving, Piece.source, Piece.growth, length_singleton]
    omega
  | list head content =>
    simp only [Piece.text, Piece.saving, Piece.source, Piece.growth, length_append, length_singleton]
    split_ifs with hn
    · rw [hn, length_nil]
    · have := List.length_pos_iff.mpr hn
      omega
  | comment body values => simp [Piece.text, Piece.saving, Piece.source, Piece.growth]
  | newline c | char c => rfl

theorem Canon.put_qryBuf (s : Canon) (p : Piece) : (s.put p).qryBuf = s.qryBuf ++ p.text := by
  cases p with
  | comment body values => exact (append_nil _).symm
  | _ => rfl

theorem Canon.puts_qryBuf (s : Canon) (ps : List Piece) : (s.puts ps).qryBuf = s.qryBuf ++ ps.flatMap Piece.text := by
  induction ps generalizing s with
  | nil => exact (append_nil _).symm
  | cons p ps ih => rw [puts_cons, ih, put_qryBuf, flatMap_cons, append_assoc]

variable {ps : List Piece}

theorem Lexed.length_text {before sql before' sql' : List Char} (h : Lexed before sql ps before' sql') :
    (ps.flatMap Piece.text).length + saving ps = (ps.flatMap Piece.source).length + growth ps := by
  induction h with
  | nil => rfl
  | @cons before sql before' sql' p ps hend hp h ih =>
    have hl := Piece.length_text (isPiece_of_nextPiece (ne_nil_of_atEnd hend) hp)
    unfold saving growth at *
    simp only [flatMap_cons, length_append, map_cons, sum_cons]
    omega

/-! ### The client id -/

/-- The values of the annotations of a piece. -/
def Piece.values : Piece → List (List Char)
  | .comment _ values => values
  | _ => []

/-- The values of all annotations. -/
def annotations (ps : List Piece) : List (List Char) := ps.flatMap Piece.values

/-- The values of the annotations of the last comment that has annotations. -/
def lastAnnotated : List Piece → List (List Char)
  | [] => []
  | p :: ps => if lastAnnotated ps = [] then p.values else lastAnnotated ps

theorem Canon.put_clientId (s : Canon) (p : Piece) :
    (s.put p).clientId = if p.values = [] then s.clientId else idText p.values := by
  cases p <;> rfl

theorem Canon.put_idBytes (s : Canon) (p : Piece) :
    (s.put p).idBytes = if p.values = [] then s.idBytes else max s.idBytes ((idText p.values).length + 1) := by
  cases p <;> rfl

theorem Canon.puts_clientId (s : Canon) (ps : List Piece) :
    (s.puts ps).clientId = if lastAnnotated ps = [] then s.clientId else idText (lastAnnotated ps) := by
  induction ps generalizing s with
  | nil => rfl
  | cons p ps ih =>
    rw [puts_cons, ih, put_clientId, lastAnnotated]
    by_cases hl : lastAnnotated ps = []
    · rw [if_pos hl, if_pos hl]
    · rw [if_neg hl, if_neg hl, if_neg hl]

theorem lastAnnotated_eq_nil_iff (ps : List Piece) : lastAnnotated ps = [] ↔ annotations ps = [] := by
  induction ps with
  | nil => exact Iff.rfl
  | cons p ps ih =>
    unfold annotations at *
    rw [lastAnnotated, flatMap_cons, append_eq_nil_iff, ← ih]
    by_cases hl : lastAnnotated ps = []
    · rw [if_pos hl]
      exact ⟨fun h => ⟨h, hl⟩, fun h => h.1⟩
    · rw [if_neg hl]
      exact ⟨fun h => absurd h hl, fun h => h.2⟩

theorem exists_mem_lastAnnotated (h : lastAnnotated ps ≠ []) : ∃ p ∈ ps, p.values = lastAnnotated ps := by
  induction ps with
  | nil => exact absurd rfl h
  | cons p ps ih =>
    rw [lastAnnotated] at h ⊢
    by_cases hl : lastAnnotated ps = []
    · rw [if_pos hl]
      exact ⟨p, mem_cons_self, rfl⟩
    · obtain ⟨q, hq, hv⟩ := ih hl
      rw [if_neg hl]
      exact ⟨q, mem_cons_of_mem p hq, hv⟩

theorem length_idText_le_iff {k : ℕ} (hk : k ≤ queryIdMaxLength) (values : List (List Char)) :
    (idText values).length ≤ k ↔ (values.map List.length).sum ≤ k := by
  induction values generalizing k with
  | nil => exact Iff.rfl
  | cons v values ih =>
    have hih := ih (k := k - v.length) (by omega)
    unfold idText at *
    rw [flatMap_cons, length_append, length_take, map_cons, sum_cons]
    omega

theorem idText_eq_flatten {values : List (List Char)} (h : (values.map List.length).sum ≤ queryIdMaxLength) :
    idText values = values.flatten := by
  induction values with
  | nil => rfl
  | cons v values ih =>
    rw [map_cons, sum_cons] at h
    have hih := ih (by omega)
    unfold idText at *
    rw [flatMap_cons, hih, take_of_length_le (by omega), flatten_cons]

theorem length_le_of_mem {values : List (List Char)} {v : List Char} (h : v ∈ values) :
    v.length ≤ (values.map List.length).sum :=
  single_le_sum (fun _ _ => Nat.zero_le _) _ (mem_map_of_mem h)

theorem Canon.puts_idBytes_le_iff (s : Canon) (ps : List Piece) : (s.puts ps).idBytes ≤ queryIdMaxLength + 1 ↔
      s.idBytes ≤ queryIdMaxLength + 1 ∧ ∀ p ∈ ps, (p.values.map List.length).sum ≤ queryIdMaxLength := by
  induction ps generalizing s with
  | nil => simp
  | cons p ps ih =>
    have hl := length_idText_le_iff le_rfl p.values
    rw [puts_cons, ih, put_idBytes, forall_mem_cons]
    by_cases hn : p.values = []
    · rw [if_pos hn, hn]
      simp
    · rw [if_neg hn, max_le_iff, Nat.succ_le_succ_iff, hl, and_assoc]

/-- **Client ids are bounded**, where comments are complete, exactly if the values of the annotations of each comment
have together at most `QUERY_ID_MAX_LENGTH` characters; and the buffer ends up with the value of one annotation exactly
if the values of the last comment with annotations are together the value of one. -/
theorem clientId_bounded_iff {before query : List Char} (hcomplete : CommentsComplete before query) :
    ((sqlLiteralReplace before query).idBytes ≤ queryIdMaxLength + 1 ∧
        ∀ ps, Pieces before query ps → annotations ps ≠ [] →
          ∃ v ∈ annotations ps, (sqlLiteralReplace before query).clientId = v.take queryIdMaxLength) ↔
      ∃ ps, Pieces before query ps ∧ (∀ p ∈ ps, (p.values.map List.length).sum ≤ queryIdMaxLength) ∧
        (annotations ps ≠ [] → ∃ v ∈ annotations ps, (lastAnnotated ps).flatten = v) := by
  -- under the first condition, nothing is cut
  have hk {ps : List Piece} (hfit : ∀ p ∈ ps, (p.values.map List.length).sum ≤ queryIdMaxLength)
      (hps : Pieces before query ps) (hne : annotations ps ≠ []) :
      (sqlLiteralReplace before query).clientId = (lastAnnotated ps).flatten ∧
        ∀ v ∈ annotations ps, v.take queryIdMaxLength = v := by
    have hl : lastAnnotated ps ≠ [] := fun h => hne ((lastAnnotated_eq_nil_iff ps).mp h)
    obtain ⟨p, hp, hvalues⟩ := exists_mem_lastAnnotated hl
    refine ⟨?_, fun v hv => ?_⟩
    · rw [sqlLiteralReplace_of_pieces hps, Canon.puts_clientId, if_neg hl, idText_eq_flatten (hvalues ▸ hfit p hp)]
    · obtain ⟨q, hq, hv⟩ := List.mem_flatMap.mp hv
      exact take_of_length_le ((length_le_of_mem hv).trans (hfit q hq))
  have hb {ps : List Piece} (hps : Pieces before query ps) :
      (sqlLiteralReplace before query).idBytes ≤ queryIdMaxLength + 1 ↔
        ∀ p ∈ ps, (p.values.map List.length).sum ≤ queryIdMaxLength := by
    rw [sqlLiteralReplace_of_pieces hps, Canon.puts_idBytes_le_iff]
    exact and_iff_right (Nat.zero_le _)
  constructor
  · rintro ⟨hle, hone⟩
    obtain ⟨ps, hps⟩ := (commentsComplete_iff before query).mp hcomplete
    have hfit := (hb hps).mp hle
    refine ⟨ps, hps, hfit, fun hne => ?_⟩
    obtain ⟨v, hv, hid⟩ := hone ps hps hne
    obtain ⟨hf, ht⟩ := hk hfit hps hne
    exact ⟨v, hv, by rw [← hf, hid, ht v hv]⟩
  · rintro ⟨ps, hps, hfit, hone⟩
    refine ⟨(hb hps).mpr hfit, fun qs hqs hne => ?_⟩
    cases hps.unique hqs
    obtain ⟨v, hv, hflatten⟩ := hone hne
    obtain ⟨hf, ht⟩ := hk hfit hps hne
    exact ⟨v, hv, by rw [hf, hflatten, ht v hv]⟩

/-- An annotation with a value of two characters. -/
theorem clientId_bounded_two : CommentsComplete [] "/*\"client_id\":\"ab\"*/".toList ∧
    (sqlLiteralReplace [] "/*\"client_id\":\"ab\"*/".toList).idBytes ≤ queryIdMaxLength + 1 := by
  have hps : Pieces [] "/*\"client_id\":\"ab\"*/".toList
      [.comment "/*\"client_id\":\"ab\"*/".toList ["ab".toList]] :=
    ⟨_, _, Lexed.cons rfl rfl (Lexed.nil _ _), rfl⟩
  have hc := (commentsComplete_iff _ _).mpr ⟨_, hps⟩
  exact ⟨hc, ((clientId_bounded_iff hc).mpr ⟨_, hps, by decide, by decide⟩).1⟩

/-- A value of 49 characters is written with its terminator to 50 bytes. -/
theorem clientId_overflows : queryIdMaxLength + 1 < (sqlLiteralReplace []
      ("/* \"client_id\" : \"".toList ++ replicate 49 'a' ++ "\" */ select 1".toList)).idBytes := by
  decide +kernel

/-! ### The buffer for the canonical text -/

/-- The length of the suffix that is written for the annotations. -/
def suffixLength (byClientId : Bool) (ps : List Piece) : ℕ :=
  let clientId := (idText (lastAnnotated ps)).takeWhile (· != sqlTerm)
  if byClientId ∧ clientId ≠ [] then 1 + clientId.length else 0

theorem keyBytes_of_pieces {before query : List Char} (h : Pieces before query ps) (byClientId : Bool) :
    keyBytes byClientId (sqlLiteralReplace before query) =
      (ps.flatMap Piece.text).length + suffixLength byClientId ps + 1 := by
  have hid : (sqlLiteralReplace before query).clientId = idText (lastAnnotated ps) := by
    rw [sqlLiteralReplace_of_pieces h, Canon.puts_clientId]
    by_cases hn : lastAnnotated ps = []
    · rw [if_pos hn, hn]
      rfl
    · rw [if_neg hn]
  unfold keyBytes suffixLength
  rw [hid, sqlLiteralReplace_of_pieces h, Canon.puts_qryBuf]
  rfl

/-- **The canonical text fits** with the suffix and the terminator, where comments are complete, exactly if there are
not more empty lists and patterns than what the buffer has left and the other pieces save. -/
theorem keyBytes_le_iff (byClientId : Bool) {before query : List Char} (hcomplete : CommentsComplete before query) :
    keyBytes byClientId (sqlLiteralReplace before query) ≤ capacity query.length ↔
      ∃ ps, Pieces before query ps ∧ (ps.flatMap Piece.source).length + growth ps + suffixLength byClientId ps + 1 ≤
          capacity query.length + saving ps := by
  have hk {ps : List Piece} (h : Pieces before query ps) :
      keyBytes byClientId (sqlLiteralReplace before query) ≤ capacity query.length ↔
        (ps.flatMap Piece.source).length + growth ps + suffixLength byClientId ps + 1 ≤
          capacity query.length + saving ps := by
    obtain ⟨before', sql', hl, -⟩ := id h
    have hlen := hl.length_text
    rw [keyBytes_of_pieces h]
    omega
  constructor
  · intro hle
    obtain ⟨ps, hps⟩ := (commentsComplete_iff before query).mp hcomplete
    exact ⟨ps, hps, (hk hps).mp hle⟩
  · rintro ⟨ps, hps, hle⟩
    exact (hk hps).mpr hle

/-- An empty list in a short query. -/
theorem keyBytes_le_emptyList : CommentsComplete [] "in()".toList ∧
    keyBytes false (sqlLiteralReplace [] "in()".toList) ≤ capacity 4 := by
  have hps : Pieces [] "in()".toList [.list "in(".toList [], .char ')'] :=
    ⟨_, _, Lexed.cons rfl rfl (Lexed.cons rfl rfl (Lexed.nil _ _)), rfl⟩
  have hc := (commentsComplete_iff _ _).mpr ⟨_, hps⟩
  exact ⟨hc, (keyBytes_le_iff false hc).mpr ⟨_, hps, by decide⟩⟩

/-- Empty lists, one behind the other. -/
def emptyLists (n : ℕ) : List Char := (replicate n "in()".toList).flatten

theorem lexed_emptyLists (n : ℕ) (before rest : List Char) : ∃ before', Lexed before (emptyLists n ++ rest)
      (replicate n [Piece.list "in(".toList [], Piece.char ')']).flatten before' rest := by
  induction n generalizing before with
  | zero => exact ⟨before, Lexed.nil before rest⟩
  | succ n ih =>
    obtain ⟨before', h⟩ := ih (')' :: '(' :: 'n' :: 'i' :: before)
    exact ⟨before', Lexed.cons rfl rfl (Lexed.cons rfl rfl h)⟩

/-- A query with a string of empty lists. -/
def stringOfLists (n : ℕ) : List Char := "select '".toList ++ (emptyLists n ++ "'".toList)

/-- Each of the lists grows by one byte. -/
theorem pieces_stringOfLists (n : ℕ) :
    ∃ ps, Pieces [] (stringOfLists n) ps ∧ (ps.flatMap Piece.text).length = 5 * n + 9 := by
  obtain ⟨before', h⟩ := lexed_emptyLists n "select '".toList.reverse "'".toList
  have hs : Lexed [] (stringOfLists n) ("select '".toList.map Piece.char) "select '".toList.reverse
      (emptyLists n ++ "'".toList) :=
    Lexed.cons rfl rfl (Lexed.cons rfl rfl (Lexed.cons rfl rfl (Lexed.cons rfl rfl
      (Lexed.cons rfl rfl (Lexed.cons rfl rfl (Lexed.cons rfl rfl (Lexed.cons rfl rfl (Lexed.nil _ _))))))))
  have hq : Lexed before' "'".toList [Piece.char quote] (quote :: before') [] :=
    Lexed.cons rfl rfl (Lexed.nil _ _)
  refine ⟨_, ⟨_, _, hs.append (h.append hq), rfl⟩, ?_⟩
  simp [Piece.text]
  omega

theorem length_stringOfLists (n : ℕ) : (stringOfLists n).length = 4 * n + 9 := by
  have hl : (emptyLists n).length = n * 4 := by
    unfold emptyLists
    rw [length_flatten, map_replicate, sum_replicate]
    rfl
  unfold stringOfLists
  rw [length_append, length_append, hl]
  change 8 + (n * 4 + 1) = 4 * n + 9
  omega

/-- A string of 900 empty lists does not fit. -/
theorem canonical_text_overflows : (sqlLiteralReplace [] (stringOfLists 900)).overran = false ∧
      capacity (stringOfLists 900).length < keyBytes false (sqlLiteralReplace [] (stringOfLists 900)) := by
  obtain ⟨ps, hps, ht⟩ := pieces_stringOfLists 900
  refine ⟨(overran_eq_false_iff _ _).mpr ⟨ps, hps⟩, ?_⟩
  rw [keyBytes_of_pieces hps, ht, length_stringOfLists]
  unfold suffixLength
  rw [if_neg (fun h => absurd h.1 Bool.false_ne_true)]
  decide

end MySQLServer.QueryStats
