namespace FlowMerge.Xml

def isSpace (c : Char) : Bool := c == ' ' || c == '\t' || c == '\r' || c == '\n'

/-- What a document is made of. Comments, declarations and instructions leave nothing. -/
inductive Piece where
  /-- A run of text, not unescaped, without white space at its ends. -/
  | text (raw : List Char)
  | literal (raw : List Char)
  | opening (name attributes : List Char) (isEmpty : Bool)
  | closing (name : List Char)
  | malformed
deriving DecidableEq, Inhabited

namespace Piece

def splitAt? (stop : List Char) : List Char → Option (List Char × List Char)
  | [] => none
  | c :: cs =>
    if stop.isPrefixOf (c :: cs) then some ([], (c :: cs).drop stop.length)
    else (splitAt? stop cs).map fun r ↦ (c :: r.1, r.2)

def tag? (quote : Option Char) : List Char → Option (List Char × List Char)
  | [] => none
  | c :: cs =>
    match quote with
    | some q => (tag? (if c = q then none else some q) cs).map fun r ↦ (c :: r.1, r.2)
    | none =>
      if c = '>' then some ([], cs)
      else (tag? (if c = '\'' ∨ c = '"' then some c else none) cs).map fun r ↦ (c :: r.1, r.2)

/-- A declaration up to the `>` that closes it, where each `<` inside is closed by one more. -/
def declaration? (depth : Nat) : List Char → Option (List Char × List Char)
  | [] => none
  | c :: cs =>
    if c = '>' then
      match depth with
      | 0 => some ([], cs)
      | d + 1 => (declaration? d cs).map fun r ↦ (c :: r.1, r.2)
    else
      (declaration? (if c = '<' then depth + 1 else depth) cs).map fun r ↦ (c :: r.1, r.2)

def trimEnd (cs : List Char) : List Char := (cs.reverse.dropWhile isSpace).reverse

/-- The name in an end tag, without white space after it. White space alone stays. -/
def closingName (cs : List Char) : List Char := if cs.all isSpace then cs else trimEnd cs

def ofTag (content : List Char) : Piece :=
  match content with
  | '/' :: name => closing (closingName name)
  | _ =>
    let isEmpty := content.getLast? = some '/'
    let inner := if isEmpty then content.dropLast else content
    opening (inner.takeWhile (!isSpace ·)) (inner.dropWhile (!isSpace ·)) isEmpty

def isDoctype (content : List Char) : Bool :=
  (content.take 7).map Char.toUpper == "DOCTYPE".toList && !(content.drop 7).all isSpace

def ofMarkup? (cs : List Char) : Option (Option Piece × List Char) :=
  if "!--".toList.isPrefixOf cs then
    (splitAt? "-->".toList (cs.drop 3)).map fun r ↦ (none, r.2)
  else if "![CDATA[".toList.isPrefixOf cs then
    (splitAt? "]]>".toList (cs.drop 8)).map fun r ↦ (some (literal r.1), r.2)
  else match cs with
  | '!' :: rest =>
    match declaration? 0 rest with
    | some (content, after) => if isDoctype content then some (none, after) else none
    | none => none
  | '?' :: '>' :: _ => none
  | '?' :: rest => (splitAt? "?>".toList rest).map fun r ↦ (none, r.2)
  | _ => (tag? none cs).map fun r ↦ (some (ofTag r.1), r.2)

def next? (cs : List Char) : Option (Option Piece × List Char) :=
  match cs.dropWhile isSpace with
  | [] => some (none, [])
  | '<' :: rest => ofMarkup? rest
  | run => some (some (text (trimEnd (run.takeWhile (· != '<')))), run.dropWhile (· != '<'))

theorem splitAt?_length {stop cs a rest : List Char} (h : splitAt? stop cs = some (a, rest)) :
    rest.length ≤ cs.length := by
  induction cs generalizing a with
  | nil => simp [splitAt?] at h
  | cons c cs ih =>
    rw [splitAt?] at h
    split at h
    · obtain ⟨-, rfl⟩ := Prod.mk.inj (Option.some.inj h)
      simp
    · obtain ⟨r, hr, e⟩ := Option.map_eq_some_iff.1 h
      obtain ⟨-, rfl⟩ := Prod.mk.inj e
      exact Nat.le_trans (ih hr) (by simp)

theorem tag?_length {q : Option Char} {cs a rest : List Char} (h : tag? q cs = some (a, rest)) :
    rest.length ≤ cs.length := by
  induction cs generalizing q a with
  | nil => simp [tag?] at h
  | cons c cs ih =>
    rw [tag?.eq_def] at h
    dsimp only at h
    split at h
    · obtain ⟨r, hr, e⟩ := Option.map_eq_some_iff.1 h
      obtain ⟨-, rfl⟩ := Prod.mk.inj e
      exact Nat.le_trans (ih hr) (by simp)
    · split at h
      · obtain ⟨-, rfl⟩ := Prod.mk.inj (Option.some.inj h)
        simp
      · obtain ⟨r, hr, e⟩ := Option.map_eq_some_iff.1 h
        obtain ⟨-, rfl⟩ := Prod.mk.inj e
        exact Nat.le_trans (ih hr) (by simp)

theorem declaration?_length {d : Nat} {cs a rest : List Char}
    (h : declaration? d cs = some (a, rest)) : rest.length ≤ cs.length := by
  induction cs generalizing d a with
  | nil => simp [declaration?] at h
  | cons c cs ih =>
    rw [declaration?.eq_def] at h
    dsimp only at h
    split at h
    · split at h
      · obtain ⟨-, rfl⟩ := Prod.mk.inj (Option.some.inj h)
        simp
      · obtain ⟨r, hr, e⟩ := Option.map_eq_some_iff.1 h
        obtain ⟨-, rfl⟩ := Prod.mk.inj e
        exact Nat.le_trans (ih hr) (by simp)
    · obtain ⟨r, hr, e⟩ := Option.map_eq_some_iff.1 h
      obtain ⟨-, rfl⟩ := Prod.mk.inj e
      exact Nat.le_trans (ih hr) (by simp)

theorem ofMarkup?_length {cs rest : List Char} {p : Option Piece}
    (h : ofMarkup? cs = some (p, rest)) : rest.length ≤ cs.length := by
  unfold ofMarkup? at h
  split at h
  · obtain ⟨r, hr, e⟩ := Option.map_eq_some_iff.1 h
    obtain ⟨-, rfl⟩ := Prod.mk.inj e
    exact Nat.le_trans (splitAt?_length hr) (by simp)
  split at h
  · obtain ⟨r, hr, e⟩ := Option.map_eq_some_iff.1 h
    obtain ⟨-, rfl⟩ := Prod.mk.inj e
    exact Nat.le_trans (splitAt?_length hr) (by simp)
  split at h
  · split at h
    next hd =>
      split at h
      · obtain ⟨-, rfl⟩ := Prod.mk.inj (Option.some.inj h)
        exact Nat.le_trans (declaration?_length hd) (by simp)
      · simp at h
    next => simp at h
  · simp at h
  · obtain ⟨r, hr, e⟩ := Option.map_eq_some_iff.1 h
    obtain ⟨-, rfl⟩ := Prod.mk.inj e
    exact Nat.le_trans (splitAt?_length hr) (by simp)
  · obtain ⟨r, hr, e⟩ := Option.map_eq_some_iff.1 h
    obtain ⟨-, rfl⟩ := Prod.mk.inj e
    exact tag?_length hr

/-- What comes after the first piece is shorter than the whole. -/
theorem next?_length {cs rest : List Char} {p : Option Piece} (hne : cs ≠ [])
    (h : next? cs = some (p, rest)) : rest.length < cs.length := by
  have hd := (List.dropWhile_sublist isSpace (l := cs)).length_le
  unfold next? at h
  split at h
  next he =>
    obtain ⟨-, rfl⟩ := Prod.mk.inj (Option.some.inj h)
    exact List.length_pos_iff.2 hne
  next r he =>
    have := ofMarkup?_length h
    rw [he] at hd
    simp only [List.length_cons] at hd
    omega
  next hnil hlt =>
    obtain ⟨-, rfl⟩ := Prod.mk.inj (Option.some.inj h)
    cases hr : cs.dropWhile isSpace with
    | nil => exact absurd hr hnil
    | cons c run =>
      have hc : (c != '<') = true := by
        rw [bne_iff_ne]
        rintro rfl
        exact hlt run hr
      rw [hr] at hd
      have := (List.dropWhile_sublist (· != '<') (l := run)).length_le
      simp only [List.dropWhile_cons, hc, if_true, List.length_cons] at hd ⊢
      omega

end Piece

/-- The pieces of a document in order, up to the first malformed one. -/
def pieces (cs : List Char) : List Piece :=
  if hne : cs = [] then []
  else match h : Piece.next? cs with
    | some (p, rest) =>
      have := Piece.next?_length hne h
      p.toList ++ pieces rest
    | none => [.malformed]
termination_by cs.length

end FlowMerge.Xml
