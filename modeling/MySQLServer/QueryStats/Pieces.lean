import MySQLServer.QueryStats.Canonical

/-! # The pieces of a query

`Comment s values rest` says that a comment stands at the front of `s`, with its annotations complete: this is what
`retrieve_client_id` reads (`retrieveClientId_eq_some`).  `Lexed before sql ps before' sql'` says that the pass reads
the pieces `ps` between two places of a query.  The pass over a query is determined by its pieces
(`sqlLiteralReplace_of_pieces`), and it leaves the query exactly if it comes to a comment that is not complete
(`inside_iff_comments_complete`). -/

namespace MySQLServer.QueryStats

open Lib List Option

/-! ### Comments -/

/-- The text starts inside of a comment, which has annotations with the values `values` and ends in front of
`rest`. -/
inductive Comment : List Char → List (List Char) → List Char → Prop where
  | close (rest : List Char) : Comment ('*' :: '/' :: rest) [] rest
  | char {c : Char} {s rest : List Char} {values : List (List Char)} (hclose : ¬ (c = '*' ∧ s.head? = some '/'))
      (hid : isClientId (c :: s) = none) (h : Comment s values rest) : Comment (c :: s) values rest
  | annotated {s value q rest : List Char} {values : List (List Char)}
      (hid : isClientId s = some (some (value ++ doubleQuote :: q))) (hvalue : doubleQuote ∉ value)
      (h : Comment (doubleQuote :: q) values rest) : Comment s (value :: values) rest

variable {c : Char} {s rest word sql before before' sql' query : List Char} {p : Piece}
  {values : List (List Char)} {ps qs : List Piece}

theorem behind_eq_some (h : behind c s = some rest) : s = s.takeWhile (· != c) ++ c :: rest := by
  unfold behind at h
  cases hd : s.dropWhile (· != c) with
  | nil =>
    rw [hd] at h
    cases h
  | cons x q =>
    rw [hd] at h
    cases h
    have hx : (x != c) = false := by
      have := head?_dropWhile_not (· != c) s
      rw [hd] at this
      simpa using this
    have hxc : x = c := by simpa using hx
    conv_lhs => rw [← takeWhile_append_dropWhile (p := (· != c)) (l := s), hd, hxc]

/-- The value of an annotation stands inside of the text. -/
theorem suffix_of_isClientId {p : List Char} (h : isClientId s = some (some p)) : p <:+ s ∧ p.length < s.length := by
  unfold isClientId at h
  dsimp only at h
  split_ifs at h
  rw [Option.some.injEq, bind_eq_some_iff] at h
  obtain ⟨q, hq, hp⟩ := h
  have hq' := behind_eq_some hq
  have hp' := behind_eq_some hp
  have hpq : p <:+ q := by
    rw [hp']
    exact (suffix_cons _ _).trans (suffix_append _ _)
  have hqs : q <:+ s := by
    refine List.IsSuffix.trans ?_ ((dropWhile_suffix isSpace).trans (drop_suffix 9 s))
    rw [hq']
    exact (suffix_cons _ _).trans (suffix_append _ _)
  have hlt := congrArg List.length hp'
  rw [length_append, length_cons] at hlt
  exact ⟨hpq.trans hqs, lt_of_lt_of_le (by omega) hqs.length_le⟩

theorem reads_retrieveStep : Reads retrieveStep := by
  intro values s values' s' h
  unfold retrieveStep at h
  split at h
  · cases h
  next c rest =>
    split_ifs at h with hc
    split at h
    · cases h
      exact Nat.lt_succ_self _
    · cases h
      exact Nat.succ_pos _
    next p hid =>
      have hlt := (suffix_of_isClientId hid).2
      split_ifs at h with hm
      · cases h
        exact lt_of_le_of_lt (p.dropWhile_sublist _).length_le hlt
      · cases h
        exact Nat.succ_pos _

theorem head_of_hasWord {w : Char} (h : hasWord (w :: word) (c :: s) = true) : c.toLower = w := by
  unfold hasWord at h
  rw [length_cons, take_succ_cons, map_cons, beq_iff_eq] at h
  exact (List.cons.inj h).1

theorem isClientId_of_head (h : c.toLower ≠ 'c') : isClientId (c :: s) = none := by
  exact if_neg fun hw => h (head_of_hasWord hw)

theorem takeWhile_append_quote {value q : List Char} (h : doubleQuote ∉ value) :
    (value ++ doubleQuote :: q).takeWhile (· != doubleQuote) = value ∧
      (value ++ doubleQuote :: q).dropWhile (· != doubleQuote) = doubleQuote :: q := by
  have hall : ∀ c ∈ value, (c != doubleQuote) = true := fun c hc => by
    rw [bne_iff_ne]
    rintro rfl
    exact h hc
  rw [takeWhile_append_of_pos hall, dropWhile_append_of_pos hall]
  simp

theorem Comment.ne_nil (h : Comment s values rest) : s ≠ [] := by
  cases h with
  | close | char => exact cons_ne_nil _ _
  | annotated hid => exact List.length_pos_iff.mp (Nat.zero_lt_of_lt (suffix_of_isClientId hid).2)

/-- A comment is read from the front. -/
theorem scan_of_comment (h : Comment s values rest) (read : List (List Char)) :
    scan retrieveStep read s = (read ++ values, '*' :: '/' :: rest) := by
  induction h generalizing read with
  | close rest =>
    rw [scan_none (by rw [retrieveStep, if_pos ⟨rfl, rfl⟩]), append_nil]
  | char hc hid h ih =>
    rw [scan_some reads_retrieveStep (by rw [retrieveStep, if_neg hc, hid]), ih]
  | @annotated s value q rest values hid hvalue h ih =>
    obtain ⟨ht, hd⟩ := takeWhile_append_quote (q := q) hvalue
    have hs : retrieveStep read s = some (read ++ [value], doubleQuote :: q) := by
      cases s with
      | nil =>
        exact absurd (suffix_of_isClientId hid).2 (Nat.not_lt_zero _)
      | cons c s =>
        have hc : ¬ (c = '*' ∧ s.head? = some '/') := by
          rintro ⟨rfl, -⟩
          rw [isClientId_of_head (by decide)] at hid
          cases hid
        rw [retrieveStep, if_neg hc, hid]
        dsimp only
        rw [if_pos (mem_append_right _ mem_cons_self), ht, hd]
    rw [scan_some reads_retrieveStep hs, ih, append_assoc, singleton_append]

/-- What is read is a comment. -/
theorem comment_of_scan (read : List (List Char)) (s : List Char) :
    ∀ rest, (scan retrieveStep read s).2 = '*' :: '/' :: rest →
      ∃ values, Comment s values rest ∧ (scan retrieveStep read s).1 = read ++ values := by
  apply scan_induction reads_retrieveStep
    (P := fun read s r => ∀ rest, r.2 = '*' :: '/' :: rest → ∃ values, Comment s values rest ∧ r.1 = read ++ values)
  · rintro read s - rest hr
    dsimp only at hr ⊢
    rw [hr]
    exact ⟨[], Comment.close rest, (append_nil read).symm⟩
  · intro read s read' s' r hs ih rest hr
    obtain ⟨values, hc, hv⟩ := ih rest hr
    unfold retrieveStep at hs
    split at hs
    · cases hs
    next c s =>
      split_ifs at hs with hcl
      split at hs
      next hid =>
        cases hs
        exact ⟨values, Comment.char hcl hid hc, hv⟩
      · cases hs
        exact absurd rfl hc.ne_nil
      next p hid =>
        split_ifs at hs with hm
        · cases hs
          obtain ⟨value, q, rfl, hvl⟩ := eq_append_cons_of_mem hm
          obtain ⟨ht, hd⟩ := takeWhile_append_quote (q := q) hvl
          rw [hd] at hc
          refine ⟨value :: values, Comment.annotated hid hvl hc, ?_⟩
          rw [hv, ht, append_assoc, singleton_append]
        · cases hs
          exact absurd rfl hc.ne_nil

theorem retrieveClientId_eq_some : retrieveClientId s = some (values, rest) ↔ Comment s values rest := by
  constructor
  · intro h
    unfold retrieveClientId at h
    split at h
    next values' rest' hs =>
      cases h
      obtain ⟨values', hc, hv⟩ := comment_of_scan [] s rest (by rw [hs])
      rw [hs, nil_append] at hv
      dsimp only at hv
      exact hv ▸ hc
    · cases h
  · intro h
    unfold retrieveClientId
    rw [scan_of_comment h []]
    rfl

/-! ### What is found at a place -/

/-- A list or pattern: the word, the blanks and the opening character of its head are part of the text. -/
theorem length_of_listHead {opening closing expect : Char} {n : ℕ}
    (h : listHead word opening closing sql = some (n, expect)) : 0 < n ∧ n ≤ sql.length ∧ expect = closing := by
  unfold listHead at h
  dsimp only at h
  split_ifs at h with hw hop
  cases h
  have hne : sql.drop (word.length + ((sql.drop word.length).takeWhile isSpace).length) ≠ [] := by
    intro hn
    rw [hn] at hop
    cases hop
  have hlt := List.length_pos_iff.mpr hne
  rw [length_drop] at hlt
  exact ⟨Nat.succ_pos _, by omega, rfl⟩

theorem length_of_isList {n : ℕ} {expect : Char} (h : isList sql = some (n, expect)) :
    0 < n ∧ n ≤ sql.length ∧ (expect = ')' ∨ expect = quote) := by
  unfold isList at h
  rw [or_eq_some_iff, or_eq_some_iff] at h
  rcases h with (h | ⟨-, h⟩) | ⟨-, h⟩
  · obtain ⟨hp, hle, hex⟩ := length_of_listHead h
    exact ⟨hp, hle, .inl hex⟩
  · obtain ⟨hp, hle, hex⟩ := length_of_listHead h
    exact ⟨hp, hle, .inl hex⟩
  · obtain ⟨hp, hle, hex⟩ := length_of_listHead h
    exact ⟨hp, hle, .inr hex⟩

theorem Comment.suffix (h : Comment s values rest) : '*' :: '/' :: rest <:+ s := by
  induction h with
  | close rest => exact suffix_refl _
  | char hclose hid h ih => exact ih.trans (suffix_cons _ _)
  | annotated hid hvalue h ih =>
    exact ih.trans ((suffix_append _ _).trans (suffix_of_isClientId hid).1)

/-- What a piece can be. -/
inductive IsPiece (sql : List Char) : Piece → Prop where
  | numeral {n : ℕ} (hpos : 0 < n) (hle : n ≤ sql.length) : IsPiece sql (.numeral (sql.take n))
  | list {n : ℕ} {expect : Char} (h : isList sql = some (n, expect)) :
      IsPiece sql (.list (sql.take n) ((sql.drop n).takeWhile fun c => c != expect && c != sqlTerm))
  | comment {s rest : List Char} {values : List (List Char)} (hsql : sql = '/' :: '*' :: s)
      (h : Comment s values rest) : IsPiece sql (.comment (sql.take (sql.length - rest.length)) values)
  | newline {c : Char} {rest : List Char} (hsql : sql = c :: rest) : IsPiece sql (.newline c)
  | char {c : Char} {rest : List Char} (hsql : sql = c :: rest) : IsPiece sql (.char c)

theorem isNumerics_le (before sql : List Char) : isNumerics before sql ≤ sql.length := by
  unfold isNumerics
  split
  · exact le_rfl
  next c rest =>
    have hle := (rest.takeWhile_sublist Char.isDigit).length_le
    split_ifs
    · rw [length_cons]
      omega
    · exact Nat.zero_le _

theorem isEdgesNameId_le (before sql : List Char) : isEdgesNameId before sql ≤ sql.length := by
  unfold isEdgesNameId
  split
  · exact le_rfl
  next c rest =>
    have hle := (rest.takeWhile_sublist Char.isDigit).length_le
    dsimp only
    split_ifs
    · rw [length_cons]
      omega
    · exact Nat.zero_le _
    · exact Nat.zero_le _

theorem isComments_iff : isComments sql = true ↔ ∃ s, sql = '/' :: '*' :: s := by
  unfold isComments
  rcases sql with _ | ⟨c, _ | ⟨d, s⟩⟩ <;> simp

theorem isPiece_of_otherPiece (hsql : sql ≠ []) (h : otherPiece before sql = some p) : IsPiece sql p := by
  obtain ⟨c, rest, rfl⟩ := exists_cons_of_ne_nil hsql
  unfold otherPiece at h
  split_ifs at h with hn hcomment
  · cases h
    have hle := (rest.takeWhile_sublist Char.isDigit).length_le
    exact IsPiece.numeral (by omega) (by rw [length_cons, tail_cons]; omega)
  · obtain ⟨s, hs⟩ := isComments_iff.mp hcomment
    obtain ⟨⟨values, rest'⟩, hr, rfl⟩ := Option.map_eq_some_iff.mp h
    rw [hs] at hr
    exact IsPiece.comment hs (retrieveClientId_eq_some.mp hr)
  · dsimp only at h
    split_ifs at h
    · cases h
      exact IsPiece.newline rfl
    · cases h
      exact IsPiece.char rfl

theorem isPiece_of_nextPiece (hs : sql ≠ []) (h : nextPiece before sql = some p) : IsPiece sql p := by
  unfold nextPiece at h
  split_ifs at h with hn hed
  · cases h
    exact IsPiece.numeral hn (isNumerics_le before sql)
  · cases h
    exact IsPiece.numeral hed (isEdgesNameId_le before sql)
  · split at h
    next n expect hl =>
      cases h
      exact IsPiece.list hl
    · exact isPiece_of_otherPiece hs h

/-- A piece is a text at the place. -/
theorem IsPiece.source (h : IsPiece sql p) : p.source ≠ [] ∧ p.source <+: sql := by
  cases h with
  | @numeral n hp hle =>
    refine ⟨?_, take_prefix n sql⟩
    rw [Piece.source, ← length_pos_iff, length_take_of_le hle]
    exact hp
  | @list n expect h =>
    obtain ⟨hp, hle, -⟩ := length_of_isList h
    refine ⟨?_, ?_⟩
    · rw [Piece.source, ← length_pos_iff, length_append, length_take_of_le hle]
      omega
    · conv_rhs => rw [← take_append_drop n sql]
      exact (prefix_append_right_inj _).mpr <| takeWhile_prefix _
  | @comment s rest values hs h =>
    have hle := h.suffix.length_le
    simp only [length_cons] at hle
    refine ⟨?_, take_prefix _ sql⟩
    rw [Piece.source, ← length_pos_iff, length_take_of_le (Nat.sub_le _ _), hs, length_cons, length_cons]
    omega
  | newline hs | char hs => exact ⟨cons_ne_nil _ _, hs ▸ ⟨_, rfl⟩⟩

/-! ### The pass from piece to piece -/

theorem ne_nil_of_atEnd (h : atEnd sql = false) : sql ≠ [] := by
  rintro rfl
  cases h

/-- The pass reads the pieces `ps` from a place to another one.  A place is given by the text in front of it, the
last character first, and the text behind it. -/
inductive Lexed : List Char → List Char → List Piece → List Char → List Char → Prop where
  | nil (before sql : List Char) : Lexed before sql [] before sql
  | cons {before sql before' sql' : List Char} {p : Piece} {ps : List Piece} (hend : atEnd sql = false)
      (hp : nextPiece before sql = some p)
      (h : Lexed (p.source.reverse ++ before) (sql.drop p.source.length) ps before' sql') :
      Lexed before sql (p :: ps) before' sql'

/-- The query is the sequence of the pieces `ps`, up to its end. -/
def Pieces (before query : List Char) (ps : List Piece) : Prop :=
  ∃ before' sql', Lexed before query ps before' sql' ∧ atEnd sql' = true

/-- The variables after the pieces `ps`. -/
def Canon.puts (s : Canon) (ps : List Piece) : Canon := ps.foldl Canon.put s

@[simp] theorem Canon.puts_nil (s : Canon) : s.puts [] = s := rfl

@[simp] theorem Canon.puts_cons (s : Canon) (p : Piece) (ps : List Piece) : s.puts (p :: ps) = (s.put p).puts ps :=
  foldl_cons ..

@[simp] theorem Canon.put_before (s : Canon) (p : Piece) : (s.put p).before = p.source.reverse ++ s.before := by
  cases p <;> rfl

@[simp] theorem Canon.put_overran (s : Canon) (p : Piece) : (s.put p).overran = s.overran := by
  cases p <;> rfl

@[simp] theorem Canon.puts_overran (s : Canon) (ps : List Piece) : (s.puts ps).overran = s.overran := by
  induction ps generalizing s with
  | nil => rfl
  | cons p ps ih => rw [puts_cons, ih, put_overran]

theorem replaceStep_of_piece {s : Canon} (hend : atEnd sql = false) (hp : nextPiece s.before sql = some p) :
    replaceStep s sql = some (s.put p, sql.drop p.source.length) := by
  rw [replaceStep, hend, hp]
  rfl

theorem reads_replaceStep : Reads replaceStep := by
  intro s sql s' sql' h
  unfold replaceStep at h
  split_ifs at h with hend
  have hne := ne_nil_of_atEnd (Bool.not_eq_true _ ▸ hend)
  split at h
  next p hp =>
    cases h
    have hpos := List.length_pos_iff.mpr (isPiece_of_nextPiece hne hp).source.1
    have hl := List.length_pos_iff.mpr hne
    rw [length_drop]
    omega
  · cases h
    exact List.length_pos_iff.mpr hne

theorem Lexed.before_eq (h : Lexed before sql ps before' sql') {s : Canon} (hs : s.before = before) :
    (s.puts ps).before = before' := by
  induction h generalizing s with
  | nil => exact hs
  | cons hend hp h ih =>
    rw [Canon.puts_cons]
    exact ih (by rw [Canon.put_before, hs])

theorem Lexed.scan_eq (h : Lexed before sql ps before' sql') {s : Canon} (hs : s.before = before) :
    scan replaceStep s sql = scan replaceStep (s.puts ps) sql' := by
  induction h generalizing s with
  | nil => rfl
  | cons hend hp h ih =>
    rw [Canon.puts_cons, scan_some reads_replaceStep (replaceStep_of_piece hend (hs ▸ hp))]
    exact ih (by rw [Canon.put_before, hs])

theorem Lexed.append {before'' sql'' : List Char} (h : Lexed before sql ps before' sql')
    (h' : Lexed before' sql' qs before'' sql'') : Lexed before sql (ps ++ qs) before'' sql'' := by
  induction h with
  | nil => exact h'
  | cons hend hp h ih => exact Lexed.cons hend hp (ih h')

/-- The pass reads pieces up to the end of the query, or up to a place where it leaves the query. -/
theorem exists_lexed (before sql : List Char) : ∃ ps before' sql', Lexed before sql ps before' sql' ∧
      (atEnd sql' = true ∨ atEnd sql' = false ∧ nextPiece before' sql' = none) := by
  induction hlen : sql.length using Nat.strong_induction_on generalizing before sql with
  | _ n ih =>
    cases hend : atEnd sql with
    | true => exact ⟨[], before, sql, Lexed.nil before sql, .inl hend⟩
    | false =>
      cases hp : nextPiece before sql with
      | none => exact ⟨[], before, sql, Lexed.nil before sql, .inr ⟨hend, hp⟩⟩
      | some p =>
        have hr := reads_replaceStep _ _ _ _ (replaceStep_of_piece (s := ⟨before, [], [], 0, false⟩) hend hp)
        obtain ⟨ps, before', sql', h, hl⟩ := ih _ (hlen ▸ hr) (p.source.reverse ++ before) _ rfl
        exact ⟨p :: ps, before', sql', Lexed.cons hend hp h, hl⟩

/-- The variables at the start of the pass. -/
def start (before : List Char) : Canon := ⟨before, [], [], 0, false⟩

/-- The pass over a query is determined by its pieces. -/
theorem sqlLiteralReplace_of_pieces (h : Pieces before query ps) :
    sqlLiteralReplace before query = (start before).puts ps := by
  obtain ⟨before', sql', hl, hend⟩ := h
  have hs := hl.scan_eq (s := start before) rfl
  have hst : scan replaceStep ((start before).puts ps) sql' = ((start before).puts ps, sql') :=
    scan_none (by rw [replaceStep, if_pos hend])
  exact congrArg Prod.fst (hs.trans hst)

theorem overran_of_nextPiece (h : Lexed before query ps before' sql') (hend : atEnd sql' = false)
    (hp : nextPiece before' sql' = none) : (sqlLiteralReplace before query).overran = true := by
  have hs := h.scan_eq (s := start before) rfl
  have hb := h.before_eq (s := start before) rfl
  generalize (start before).puts ps = s at hs hb
  have hst : replaceStep s sql' = some ({ s with overran := true }, []) := by
    rw [replaceStep, hend, hb, hp]
    rfl
  have hsp : scan replaceStep { s with overran := true } [] = ({ s with overran := true }, []) := scan_none rfl
  rw [scan_some reads_replaceStep hst, hsp] at hs
  exact congrArg (fun r => r.1.overran) hs

theorem overran_eq_false_iff (before query : List Char) :
    (sqlLiteralReplace before query).overran = false ↔ ∃ ps, Pieces before query ps := by
  constructor
  · intro h
    obtain ⟨ps, before', sql', hl, hend | ⟨hend, hp⟩⟩ := exists_lexed before query
    · exact ⟨ps, before', sql', hl, hend⟩
    · rw [overran_of_nextPiece hl hend hp] at h
      cases h
  · rintro ⟨ps, hps⟩
    rw [sqlLiteralReplace_of_pieces hps, Canon.puts_overran]
    rfl

theorem Lexed.unique_end (h : Lexed before query ps before' sql') (hend : atEnd sql' = true)
    {before'' sql'' : List Char} (h' : Lexed before query qs before'' sql'') :
    ∃ rs, ps = qs ++ rs ∧ Lexed before'' sql'' rs before' sql' := by
  induction h' generalizing ps with
  | nil => exact ⟨ps, rfl, h⟩
  | cons hq hp h' ih =>
    cases h with
    | nil =>
      rw [hend] at hq
      cases hq
    | cons hend' hp' h =>
      cases hp.symm.trans hp'
      obtain ⟨rs, hrs, hl⟩ := ih h
      exact ⟨rs, congrArg _ hrs, hl⟩

/-- A query has one sequence of pieces. -/
theorem Pieces.unique (h : Pieces before query ps) (h' : Pieces before query qs) : ps = qs := by
  obtain ⟨_, _, hl, hend⟩ := h
  obtain ⟨_, _, hl', he'⟩ := h'
  obtain ⟨rs, rfl, hrs⟩ := hl.unique_end hend hl'
  cases hrs with
  | nil => exact (append_nil _)
  | cons hn =>
    rw [he'] at hn
    cases hn

/-! ### Leaving the query -/

theorem listHead_of_head {w : Char} {opening closing : Char} (h : c.toLower ≠ w) :
    listHead (w :: word) opening closing (c :: s) = none := by
  exact if_neg fun hw => h (head_of_hasWord hw)

theorem isList_of_head (hi : c.toLower ≠ 'i') (hv : c.toLower ≠ 'v') (hl : c.toLower ≠ 'l') :
    isList (c :: s) = none := by
  unfold isList isInList isValuesList isLikeExpr
  rw [show "in".toList = ['i', 'n'] from rfl, show "values".toList = ['v', 'a', 'l', 'u', 'e', 's'] from rfl,
    show "like".toList = ['l', 'i', 'k', 'e'] from rfl, listHead_of_head hi, listHead_of_head hv, listHead_of_head hl]
  rfl

theorem isNumerics_of_head (h : c.isDigit = false) : isNumerics before (c :: s) = 0 := by
  rw [isNumerics, h]
  rfl

theorem isEdgesNameId_of_head (h : c.isDigit = false) : isEdgesNameId before (c :: s) = 0 := by
  rw [isEdgesNameId, h]
  rfl

/-- At the start of a comment, the comment is read. -/
theorem nextPiece_comment (before s : List Char) :
    nextPiece before ('/' :: '*' :: s) = (retrieveClientId s).map fun r =>
      .comment (('/' :: '*' :: s).take (('/' :: '*' :: s).length - r.2.length)) r.1 := by
  rw [nextPiece, isNumerics_of_head (by decide), isEdgesNameId_of_head (by decide),
    isList_of_head (by decide) (by decide) (by decide)]
  rfl

/-- The pass leaves the query only in a comment. -/
theorem nextPiece_eq_none (h : nextPiece before sql = none) :
    ∃ s, sql = '/' :: '*' :: s ∧ retrieveClientId s = none := by
  unfold nextPiece at h
  split_ifs at h with hn hed
  split at h
  · cases h
  · unfold otherPiece at h
    dsimp only at h
    split_ifs at h with hneg hc
    obtain ⟨s, rfl⟩ := isComments_iff.mp hc
    exact ⟨s, rfl, Option.map_eq_none_iff.mp h⟩

/-- Every comment that the scan comes to is complete: it is closed, and so are the annotations in it. -/
def CommentsComplete (before query : List Char) : Prop :=
  ∀ ps before' s, Lexed before query ps before' ('/' :: '*' :: s) → ∃ values rest, Comment s values rest

theorem commentsComplete_iff (before query : List Char) :
    CommentsComplete before query ↔ ∃ ps, Pieces before query ps := by
  rw [← overran_eq_false_iff]
  constructor
  · intro h
    rw [overran_eq_false_iff]
    obtain ⟨ps, before', sql', hl, hend | ⟨hend, hp⟩⟩ := exists_lexed before query
    · exact ⟨ps, before', sql', hl, hend⟩
    · obtain ⟨s, rfl, hr⟩ := nextPiece_eq_none hp
      obtain ⟨values, rest, hc⟩ := h ps before' s hl
      rw [retrieveClientId_eq_some.mpr hc] at hr
      cases hr
  · intro h ps before' s hl
    by_contra hn
    have hp : nextPiece before' ('/' :: '*' :: s) = none := by
      rw [nextPiece_comment, map_eq_none_iff, eq_none_iff_forall_ne_some]
      rintro ⟨values, rest⟩ hr
      exact hn ⟨values, rest, retrieveClientId_eq_some.mp hr⟩
    rw [overran_of_nextPiece hl rfl hp] at h
    cases h

/-- **The scan stays inside of the query** exactly if every comment it comes to is complete: it is closed, and so are
the annotations in it. -/
theorem inside_iff_comments_complete (before query : List Char) : (sqlLiteralReplace before query).overran = false ↔
      ∀ ps before' s, Lexed before query ps before' ('/' :: '*' :: s) → ∃ values rest, Comment s values rest :=
  (overran_eq_false_iff before query).trans (commentsComplete_iff before query).symm

/-- In a string, the two characters that open a comment make the scan leave the query. -/
theorem slash_star_in_string_overruns : (sqlLiteralReplace [] ("select '/*'".toList)).overran = true := by
  decide +kernel

end MySQLServer.QueryStats
