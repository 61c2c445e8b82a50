import TuneRelay.Proofs.Mml.Deletion

/-!
# Comments leave nothing behind

Comments are cut only after sanitizing, so an escape could begin in a comment and end after it. It
does not: neither a newline nor a semicolon stands in any escape, and sanitizing keeps apart what
they separate.
-/
namespace TuneRelay.Mml
open Text

/-- A printable character that stands in no escape. -/
structure Separator (d : Char) : Prop where
  printable : isPrintable d = true
  ne_dollar : d ≠ '$'
  not_hex : isHexDigit d = false

theorem separator_newline : Separator '\n' := ⟨rfl, by decide, rfl⟩

theorem separator_semicolon : Separator ';' := ⟨rfl, by decide, rfl⟩

theorem Separator.not_mem {d : Char} (hd : Separator d) {w : List Char}
    (he : isEscape w = true) : d ∉ w := by
  intro hmem
  rcases eq_dollar_or_isHexDigit_of_mem he hmem with hdollar | hhex
  · exact hd.ne_dollar hdollar
  · rw [hd.not_hex] at hhex
    cases hhex

/-- The newest five characters of a stack are no escape if a separator is one of them. -/
theorem Separator.not_escape {d : Char} (hd : Separator d) {above below w tail : List Char}
    (hsplit : above ++ d :: below = w.reverse ++ tail) (hnew : above.length < 5) :
    ¬ isEscape w = true := by
  intro he
  have hlen : above.length < w.reverse.length := by
    rw [List.length_reverse, isEscape_length he]
    exact hnew
  have hget : (w.reverse ++ tail)[above.length]? = some d := by
    rw [← hsplit]
    simp
  rw [List.getElem?_append_left hlen] at hget
  exact hd.not_mem he (List.mem_reverse.mp (List.mem_of_getElem? hget))

theorem settleChars_append {d : Char} (hd : Separator d) (above below : List Char) :
    settleChars (above ++ d :: below) = settleChars above ++ d :: below := by
  rcases above with _ | ⟨last, _ | ⟨fourth, _ | ⟨third, _ | ⟨second, _ | ⟨first, rest⟩⟩⟩⟩⟩
  case cons.cons.cons.cons.cons =>
    simp only [settleChars, List.cons_append]
    split <;> rfl
  all_goals
    apply settleChars_eq_self
    intro w tail hsplit
    exact hd.not_escape hsplit (by simp)

theorem pushChar_append {d : Char} (hd : Separator d) (above below : List Char) (c : Char) :
    pushChar (above ++ d :: below) c = pushChar above c ++ d :: below := by
  unfold pushChar
  split
  · exact settleChars_append hd (c :: above) below
  · rfl

theorem foldl_pushChar_append {d : Char} (hd : Separator d) (text above below : List Char) :
    text.foldl pushChar (above ++ d :: below) = text.foldl pushChar above ++ d :: below := by
  induction text generalizing above with
  | nil => rfl
  | cons c rest ih => rw [List.foldl_cons, pushChar_append hd, ih, List.foldl_cons]

theorem pushChar_separator {d : Char} (hd : Separator d) (stack : List Char) :
    pushChar stack d = d :: stack := by
  apply pushChar_of_not_escape hd.printable
  intro w below hsplit
  have hnewest : [] ++ d :: stack = w.reverse ++ below := hsplit
  exact hd.not_escape hnewest (by decide)

theorem sanitize_append_separator {d : Char} (hd : Separator d) (a b : List Char) :
    (sanitize (a ++ d :: b)).text.chars =
      (sanitize a).text.chars ++ d :: (sanitize b).text.chars := by
  have hpush := foldl_pushChar_append hd b [] (a.foldl pushChar [])
  rw [List.nil_append] at hpush
  rw [sanitize_chars, sanitize_chars, sanitize_chars, List.foldl_append, List.foldl_cons,
    pushChar_separator hd, hpush]
  simp

/-- A scan passes over the text of an open comment. -/
theorem CommentScan.foldl_of_inComment {comment : List Char} (h : '\n' ∉ comment)
    {s : CommentScan} (hs : s.inComment = true) : comment.foldl read s = s := by
  induction comment with
  | nil => rfl
  | cons c rest ih =>
    have hc : c ≠ '\n' := fun hline => h (by simp [hline])
    have hrest : '\n' ∉ rest := fun hmem => h (List.mem_cons_of_mem c hmem)
    rw [List.foldl_cons, read_of_inComment hs hc, ih hrest]

theorem stripComments_line {comment : List Char} (h : '\n' ∉ comment) (before after : List Char) :
    stripComments (before ++ ';' :: (comment ++ '\n' :: after)) =
      stripComments (before ++ '\n' :: after) := by
  simp only [stripComments, List.foldl_append, List.foldl_cons, CommentScan.read_semicolon,
    CommentScan.foldl_of_inComment h, CommentScan.read_newline]

theorem stripComments_last {comment : List Char} (h : '\n' ∉ comment) (before : List Char) :
    stripComments (before ++ ';' :: comment) = stripComments before := by
  simp only [stripComments, List.foldl_append, List.foldl_cons, CommentScan.read_semicolon,
    CommentScan.foldl_of_inComment h]

theorem not_mem_sanitize {c : Char} {raw : List Char} (h : c ∉ raw) :
    c ∉ (sanitize raw).text.chars := by
  intro hmem
  exact h ((sanitize_sublist raw).subset hmem)

theorem body_of_strip {options : CompileOptions} (h : options.stripComments = true)
    (text : SanitizedText) : body text options = stripComments text.chars := by
  rw [body, if_pos h]

/-- A comment with a line after it can be left out. -/
theorem compileText_line {options : CompileOptions} (hstrip : options.stripComments = true)
    {comment : List Char} (h : '\n' ∉ comment) (a r : List Char) :
    (compileText (a ++ ';' :: (comment ++ '\n' :: r)) options).map Prod.fst =
      (compileText (a ++ '\n' :: r) options).map Prod.fst := by
  rw [compileText_value, compileText_value]
  apply compile_congr
  rw [body_of_strip hstrip, body_of_strip hstrip, sanitize_append_separator separator_semicolon,
    sanitize_append_separator separator_newline, sanitize_append_separator separator_newline,
    stripComments_line (not_mem_sanitize h)]

/-- A comment that ends the text can be left out. -/
theorem compileText_last {options : CompileOptions} (hstrip : options.stripComments = true)
    {comment : List Char} (h : '\n' ∉ comment) (a : List Char) :
    (compileText (a ++ ';' :: comment) options).map Prod.fst =
      (compileText a options).map Prod.fst := by
  rw [compileText_value, compileText_value]
  apply compile_congr
  rw [body_of_strip hstrip, body_of_strip hstrip, sanitize_append_separator separator_semicolon,
    stripComments_last (not_mem_sanitize h)]

/-- Two texts that differ only inside a comment compile alike, but for the warnings, wherever the
comment stands and whatever raw characters it holds. -/
theorem comment_not_compiled {options : CompileOptions} (hstrip : options.stripComments = true)
    {c₁ c₂ : List Char} (h₁ : '\n' ∉ c₁) (h₂ : '\n' ∉ c₂) (a r : List Char) :
    (compileText (a ++ ';' :: (c₁ ++ '\n' :: r)) options).map Prod.fst =
        (compileText (a ++ ';' :: (c₂ ++ '\n' :: r)) options).map Prod.fst ∧
      (compileText (a ++ ';' :: c₁) options).map Prod.fst =
        (compileText (a ++ ';' :: c₂) options).map Prod.fst := by
  constructor
  · rw [compileText_line hstrip h₁, compileText_line hstrip h₂]
  · rw [compileText_last hstrip h₁, compileText_last hstrip h₂]

/-- One comment completes an escape, begins another and holds a tempo, notes and a control
character; the other is empty. -/
theorem comment_not_compiled_escapes :
    ({} : CompileOptions).stripComments = true ∧ '\n' ∉ "00T5 e\x01$0".toList ∧
      '\n' ∉ ([] : List Char) ∧
      (compileText ("T90 c$0b".toList ++ ';' :: ("00T5 e\x01$0".toList ++ '\n' :: "b00 d".toList))
          {}).map Prod.fst =
        (compileText ("T90 c$0b".toList ++ ';' :: ([] ++ '\n' :: "b00 d".toList)) {}).map Prod.fst ∧
      (compileText ("T90 c$0b".toList ++ ';' :: "00T5 e\x01$0".toList) {}).map Prod.fst =
        (compileText ("T90 c$0b".toList ++ [';']) {}).map Prod.fst ∧
      (compileText ("T90 c$0b".toList ++ ';' :: ([] ++ '\n' :: "b00 d".toList)) {}).map
          (fun c => (c.1.tempo, c.1.notes)) = .ok (90, [.c, .b, .b, .d]) ∧
      (compileText ("T90 c$0b".toList ++ [';']) {}).map (fun c => (c.1.tempo, c.1.notes)) =
        .ok (90, [.c, .b]) := by
  have hcomment : '\n' ∉ "00T5 e\x01$0".toList := by decide
  have hempty : '\n' ∉ ([] : List Char) := by decide
  have hstrip : ({} : CompileOptions).stripComments = true := rfl
  obtain ⟨hline, hlast⟩ :=
    comment_not_compiled hstrip hcomment hempty "T90 c$0b".toList "b00 d".toList
  exact ⟨hstrip, hcomment, hempty, hline, hlast, by decide, by decide⟩

end TuneRelay.Mml
