import Mathlib.Data.List.TakeWhile
import SchemaCodec.Identifier

/-!
# Unique decomposition of texts

When is a text, followed by something else, the text of only one thing? A *word* ends where its
characters end (`run_append_inj`). A longer expression ends where a delimiter follows it:
`Separable` says of two things that their texts, each followed by a delimiter or by nothing, agree
only if the things and what follows them do. Lists of separable things are separable when they are
written with a separator and a closing text that cannot be taken for each other
(`joined_append_inj`).
-/

namespace SchemaCodec.Text

/-- Characters of words: identifiers, dotted identifiers and numbers. -/
def isWordPart (c : Char) : Bool :=
  Identifier.isPart c || c == '.' || c == '+' || c == '-'

/-- Characters that can follow a complete expression. -/
def isDelimiter (c : Char) : Bool :=
  c == ',' || c == ';' || c == ' ' || c == ')' || c == ']' || c == '>'

/-- No word continues here. -/
def EndsWord (cs : List Char) : Prop :=
  ∀ c ∈ cs.head?, isWordPart c = false

/-- An expression may have ended here. -/
def Delimited (cs : List Char) : Prop :=
  ∀ c ∈ cs.head?, isDelimiter c = true

/-- An expression may start here. -/
def Opens (cs : List Char) : Prop :=
  ∃ c ∈ cs.head?, isDelimiter c = false

/-- Delimiters stand outside of words. -/
theorem not_isWordPart_of_isDelimiter {c : Char} (h : isDelimiter c = true) :
    isWordPart c = false := by
  simp only [isDelimiter, Bool.or_eq_true, beq_iff_eq] at h
  rcases h with ((((rfl | rfl) | rfl) | rfl) | rfl) | rfl <;> rfl

/-- Where an expression may have ended, a word has ended. -/
theorem Delimited.endsWord {cs : List Char} (h : Delimited cs) : EndsWord cs :=
  fun c hc ↦ not_isWordPart_of_isDelimiter (h c hc)

theorem Opens.append {cs : List Char} (h : Opens cs) (rest : List Char) : Opens (cs ++ rest) := by
  obtain ⟨c, hc, hdelimiter⟩ := h
  exact ⟨c, by simp [List.head?_append, Option.mem_def.1 hc], hdelimiter⟩

/-- An expression does not start where another may have ended. -/
theorem Opens.not_delimited {cs : List Char} (h : Opens cs) : ¬Delimited cs := by
  obtain ⟨c, hc, hdelimiter⟩ := h
  intro hcs
  rw [hcs c hc] at hdelimiter
  exact absurd hdelimiter (by decide)

/-! ### Words -/

/-- A scan for characters of one kind takes a run of them up to the first other character. -/
theorem takeWhile_append_of_head? {p : Char → Bool} {w rest : List Char}
    (hw : ∀ c ∈ w, p c = true) (hrest : ∀ c ∈ rest.head?, p c = false) :
    (w ++ rest).takeWhile p = w := by
  have hstop : rest.takeWhile p = [] := by
    cases rest with
    | nil => rfl
    | cons c rest => rw [List.takeWhile_cons_of_neg (by simp [hrest c rfl])]
  rw [List.takeWhile_append_of_pos hw, hstop, List.append_nil]

/-- What stands before the first mark: all characters if there is none. -/
theorem takeWhile_ne_eq_iff {mark : Char} {cs front : List Char} :
    cs.takeWhile (· != mark) = front ↔
      mark ∉ front ∧ (cs = front ∨ ∃ rest, cs = front ++ mark :: rest) := by
  constructor
  · rintro rfl
    refine ⟨fun hmem ↦ by simpa using List.mem_takeWhile_imp hmem, ?_⟩
    have hsplit := List.takeWhile_append_dropWhile (p := (· != mark)) (l := cs)
    rcases hrest : cs.dropWhile (· != mark) with - | ⟨c, rest⟩
    · rw [hrest, List.append_nil] at hsplit
      exact .inl hsplit.symm
    · -- the first character that stops the scan is the mark
      have hstop := List.head?_dropWhile_not (· != mark) cs
      rw [hrest] at hstop
      obtain rfl : c = mark := by simpa using hstop
      rw [hrest] at hsplit
      exact .inr ⟨rest, hsplit.symm⟩
  · rintro ⟨hmark, hcs⟩
    have hfront : ∀ c ∈ front, (c != mark) = true := by
      intro c hc
      rw [bne_iff_ne]
      rintro rfl
      exact hmark hc
    rcases hcs with rfl | ⟨rest, rfl⟩
    · exact List.takeWhile_eq_self_iff.2 hfront
    · exact takeWhile_append_of_head? hfront fun c hc ↦ by simp_all

/-- **A run of characters of one kind ends where the kind ends.** -/
theorem run_append_inj {p : Char → Bool} {w w' rest rest' : List Char}
    (hw : ∀ c ∈ w, p c = true) (hw' : ∀ c ∈ w', p c = true)
    (hrest : ∀ c ∈ rest.head?, p c = false) (hrest' : ∀ c ∈ rest'.head?, p c = false)
    (h : w ++ rest = w' ++ rest') : w = w' ∧ rest = rest' := by
  have hrun := congrArg (List.takeWhile p) h
  rw [takeWhile_append_of_head? hw hrest, takeWhile_append_of_head? hw' hrest'] at hrun
  subst hrun
  exact ⟨rfl, List.append_cancel_left h⟩

/-! ### Lists -/

section Lists

variable {α : Type} {text : α → List Char} {xs ys : List α} {sep close rest rest' : List Char}

/-- Followed by a delimiter or by nothing, the texts of `x` and `y` agree only if `x` and `y` do. -/
def Separable (text : α → List Char) (x y : α) : Prop :=
  ∀ ⦃rest rest' : List Char⦄, Delimited rest → Delimited rest' →
    text x ++ rest = text y ++ rest' → x = y ∧ rest = rest'

/-- The texts of a list with a separator between them and a closing text behind. -/
def joined (text : α → List Char) (sep close : List Char) (xs : List α) : List Char :=
  sep.intercalate (xs.map text) ++ close

/-- What follows the first of several texts. -/
def joinedTail (text : α → List Char) (sep close : List Char) : List α → List Char
  | [] => close
  | x :: xs => sep ++ joined text sep close (x :: xs)

theorem joined_cons (x : α) (xs : List α) :
    joined text sep close (x :: xs) = text x ++ joinedTail text sep close xs := by
  cases xs with
  | nil => simp [joined, joinedTail, List.intercalate_singleton]
  | cons y ys => simp [joined, joinedTail, List.intercalate_cons_cons]

/-- A separator and a closing text that start with different delimiters. -/
structure Punctuation (sep close : List Char) : Prop where
  delimited_sep : ∀ rest, Delimited (sep ++ rest)
  delimited_close : ∀ rest, Delimited (close ++ rest)
  ne : ∀ rest rest', sep ++ rest ≠ close ++ rest'

/-- Two different delimiters in front make a punctuation. -/
theorem Punctuation.of_cons {c d : Char} {cs ds : List Char} (hc : isDelimiter c = true)
    (hd : isDelimiter d = true) (hne : c ≠ d) : Punctuation (c :: cs) (d :: ds) where
  delimited_sep := by
    rintro rest x ⟨⟩
    exact hc
  delimited_close := by
    rintro rest x ⟨⟩
    exact hd
  ne := fun _ _ h ↦ hne (List.cons.inj h).1

/-- Behind each text of a joined list stands a delimiter. -/
theorem Punctuation.delimited_joinedTail (hp : Punctuation sep close) (xs : List α)
    (rest : List Char) : Delimited (joinedTail text sep close xs ++ rest) := by
  cases xs with
  | nil => exact hp.delimited_close rest
  | cons x xs =>
    rw [joinedTail, List.append_assoc]
    exact hp.delimited_sep _

/-- Behind their first texts, two lists both end or both go on. -/
theorem Punctuation.joined_eq_of_joinedTail_eq (hp : Punctuation sep close)
    (h : joinedTail text sep close xs ++ rest = joinedTail text sep close ys ++ rest') :
    joined text sep close xs ++ rest = joined text sep close ys ++ rest' := by
  match xs, ys with
  | [], [] => exact h
  | [], y :: ys =>
    rw [joinedTail, joinedTail, List.append_assoc] at h
    exact absurd h.symm (hp.ne _ _)
  | x :: xs, [] =>
    rw [joinedTail, joinedTail, List.append_assoc] at h
    exact absurd h (hp.ne _ _)
  | x :: xs, y :: ys =>
    rw [joinedTail, joinedTail, List.append_assoc, List.append_assoc] at h
    exact List.append_cancel_left h

/-- A list that is not empty does not start with a delimiter, so it differs from a closing text. -/
theorem not_delimited_joined_cons {x : α} (hx : Opens (text x)) :
    ¬Delimited (joined text sep close (x :: xs) ++ rest) := by
  rw [joined_cons, List.append_assoc]
  exact (hx.append _).not_delimited

/-- **Lists of separable things are separable.** -/
theorem joined_append_inj (hp : Punctuation sep close)
    (hsep : ∀ x ∈ xs, ∀ y ∈ ys, Separable text x y) (hxs : ∀ x ∈ xs, Opens (text x))
    (hys : ∀ y ∈ ys, Opens (text y))
    (h : joined text sep close xs ++ rest = joined text sep close ys ++ rest') :
    xs = ys ∧ rest = rest' := by
  induction xs generalizing ys with
  | nil =>
    cases ys with
    | nil => exact ⟨rfl, List.append_cancel_left h⟩
    | cons y ys =>
      have hclose : Delimited (joined text sep close [] ++ rest) := hp.delimited_close rest
      rw [h] at hclose
      exact absurd hclose (not_delimited_joined_cons (hys y List.mem_cons_self))
  | cons x xs ih =>
    cases ys with
    | nil =>
      have hclose : Delimited (joined text sep close [] ++ rest') := hp.delimited_close rest'
      rw [← h] at hclose
      exact absurd hclose (not_delimited_joined_cons (hxs x List.mem_cons_self))
    | cons y ys =>
      rw [joined_cons, joined_cons, List.append_assoc, List.append_assoc] at h
      obtain ⟨rfl, htail⟩ := hsep x List.mem_cons_self y List.mem_cons_self
        (hp.delimited_joinedTail xs rest) (hp.delimited_joinedTail ys rest') h
      obtain ⟨rfl, hrest⟩ := ih
        (fun x' hx' y hy ↦ hsep x' (List.mem_cons_of_mem _ hx') y (List.mem_cons_of_mem _ hy))
        (fun x' hx' ↦ hxs x' (List.mem_cons_of_mem _ hx'))
        (fun y hy ↦ hys y (List.mem_cons_of_mem _ hy)) (hp.joined_eq_of_joinedTail_eq htail)
      exact ⟨rfl, hrest⟩

end Lists

end SchemaCodec.Text
