import NetlistSplit.Proofs.Comment.Lines

/-!
# Comments are invisible

A comment that is put into the code of a netlist does not show in what is kept of it
(`strip_comment_invisible`).  It may hold whatever it likes, quotes, backslashes and the
openers of other comments included.  A block comment may be put anywhere, except behind
a slash, which would open another comment with it.  A line comment may be put in front
of any newline, with blanks before it, where no blank is kept yet: it takes back all
the blanks it finds.

## Strategy

Where the comment ends, the stripper has kept the same as where it began, and it is
in code again (`outcome_insert_blockComment`, `outcome_insert_lineComment`).  Only the
lines of the comment have been read in between, and they do no more than to move the
faults of what follows (`outcome_behind`).
-/

namespace NetlistSplit.Comment

/-! ## Texts that end in code -/

/-- Whether a mode is one of code. -/
def Mode.IsCode (mode : Mode) : Prop :=
  mode = code ∨ mode = slash

instance (mode : Mode) : Decidable mode.IsCode :=
  inferInstanceAs (Decidable (_ ∨ _))

/-- Only a slash may open a comment with the byte behind it. -/
theorem slash_of_modeAfter {text : Text} (hmode : modeAfter text = .slash) :
    text.getLast? = some Byte.slash := by
  induction text using List.reverseRecOn with
  | nil => cases hmode
  | append_singleton first b =>
      have hnext : (modeAfter first).next (Stripper.read {} first).line b = .slash := by
        rw [← hmode, modeAfter, modeAfter, Stripper.read_append]
        rfl
      rw [List.getLast?_concat]
      cases hfirst : modeAfter first with
      | code =>
          rw [hfirst, Mode.next] at hnext
          split_ifs at hnext with hquote hb
          exact congrArg some hb
      | escape =>
          rw [hfirst] at hnext
          cases hnext
      | _ =>
          rw [hfirst, Mode.next] at hnext
          split_ifs at hnext

theorem modeAfter_eq_code {text : Text} (hcode : (modeAfter text).IsCode)
    (hslash : text.getLast? ≠ some Byte.slash) : modeAfter text = .code :=
  hcode.resolve_right fun hmode => hslash (slash_of_modeAfter hmode)

/-! ## Where a comment ends -/

/-- A text without `*/` does not close a block comment. -/
theorem blockBody_append {inner : Text} (hinner : ¬ [Byte.star, Byte.slash] <:+: inner)
    (later : Text) :
    blockBody (inner ++ [Byte.star, Byte.slash] ++ later) =
      (inner ++ [Byte.star, Byte.slash], true) := by
  induction inner with
  | nil => rfl
  | cons b rest ih =>
      have hcloser : ¬ (b = Byte.star ∧
          (rest ++ [Byte.star, Byte.slash] ++ later).head? = some Byte.slash) := by
        rintro ⟨rfl, hhead⟩
        cases rest with
        | nil => cases hhead
        | cons c rest =>
            obtain rfl := Option.some.inj hhead
            exact hinner ⟨[], rest, rfl⟩
      have hrest : ¬ [Byte.star, Byte.slash] <:+: rest :=
        fun hinside => hinner (hinside.trans (List.suffix_cons b rest).isInfix)
      rw [List.cons_append, List.cons_append, blockBody, if_neg hcloser, ih hrest]

/-- A line comment reaches to the end of its line. -/
theorem lineBody_append {inner : Text} (hinner : Byte.newline ∉ inner) (later : Text) :
    lineBody (inner ++ [Byte.newline] ++ later) = (inner ++ [Byte.newline], true) := by
  induction inner with
  | nil => rfl
  | cons b rest ih =>
      obtain ⟨hb, hrest⟩ := not_or.mp (mt List.mem_cons.mpr hinner)
      rw [List.cons_append, List.cons_append, lineBody, if_neg (Ne.symm hb), ih hrest]

namespace Stripper

/-! ## The stripper behind a comment -/

/-- A block comment leaves nothing behind but its lines. -/
theorem outcome_insert_blockComment {inner : Text}
    (hinner : ¬ [Byte.star, Byte.slash] <:+: inner) (line : Nat) (kept later : Text) :
    outcome ⟨.code, line, kept⟩
        (Byte.slash :: Byte.star :: (inner ++ [Byte.star, Byte.slash] ++ later)) =
      (outcome ⟨.code, line, kept⟩ later).mapError
        (SourceError.moved (inner.count Byte.newline)) := by
  have hcount : (inner ++ [Byte.star, Byte.slash]).count Byte.newline =
      inner.count Byte.newline := by
    rw [List.count_append]
    rfl
  calc outcome ⟨.code, line, kept⟩
        (Byte.slash :: Byte.star :: (inner ++ [Byte.star, Byte.slash] ++ later))
      = outcome ⟨.blockComment line, line, kept⟩ (inner ++ [Byte.star, Byte.slash] ++ later) := rfl
    _ = outcome ⟨.code, line + inner.count Byte.newline, kept⟩ later := by
        rw [outcome_blockComment, blockBody_append hinner, if_pos rfl, hcount, List.drop_left]
    _ = outcome (behind (inner.count Byte.newline) [] ⟨.code, line, kept⟩) later := by
        rw [behind, List.reverse_nil, List.append_nil]
        rfl
    _ = ((outcome ⟨.code, line, kept⟩ later).map ([] ++ ·)).mapError
          (SourceError.moved (inner.count Byte.newline)) :=
        outcome_behind (by simp) (fun hslash => by cases hslash) _ later
    _ = (outcome ⟨.code, line, kept⟩ later).mapError
          (SourceError.moved (inner.count Byte.newline)) := by
        cases outcome ⟨.code, line, kept⟩ later <;> rfl

/-- Blanks in code are kept. -/
theorem outcome_blanks {blanks : Text} (hblanks : ∀ b ∈ blanks, Byte.isBlank b = true)
    (line : Nat) (kept later : Text) :
    outcome ⟨.code, line, kept⟩ (blanks ++ later) =
      outcome ⟨.code, line, blanks.reverse ++ kept⟩ later := by
  induction blanks generalizing kept with
  | nil => rfl
  | cons b rest ih =>
      have hstep : step ⟨.code, line, kept⟩ b = ⟨.code, line, b :: kept⟩ := by
        have hb := hblanks b List.mem_cons_self
        rcases (by simpa [Byte.isBlank] using hb : b = Byte.space ∨ b = Byte.tab) with rfl | rfl <;>
          rfl
      rw [List.cons_append, outcome_cons, hstep,
        ih (fun c hc => hblanks c (List.mem_cons_of_mem b hc)), List.reverse_cons,
        List.append_assoc]
      rfl

/-- A line comment and the blanks in front of it leave nothing behind. -/
theorem outcome_insert_lineComment {blanks inner kept : Text}
    (hblanks : ∀ b ∈ blanks, Byte.isBlank b = true) (hinner : Byte.newline ∉ inner)
    (hkept : ∀ b ∈ kept.head?, Byte.isBlank b = false) (line : Nat) (later : Text) :
    outcome ⟨.code, line, kept⟩
        (blanks ++ Byte.slash :: Byte.slash :: (inner ++ [Byte.newline] ++ later)) =
      outcome ⟨.code, line, kept⟩ (Byte.newline :: later) := by
  have hstays : (blanks.reverse ++ kept).dropWhile Byte.isBlank = kept := by
    rw [List.dropWhile_append_of_pos fun b hb => hblanks b (List.mem_reverse.mp hb)]
    cases kept with
    | nil => rfl
    | cons b rest => exact List.dropWhile_cons_of_neg (Bool.eq_false_iff.mp (hkept b rfl))
  calc outcome ⟨.code, line, kept⟩
        (blanks ++ Byte.slash :: Byte.slash :: (inner ++ [Byte.newline] ++ later))
      = outcome ⟨.lineComment, line, (blanks.reverse ++ kept).dropWhile Byte.isBlank⟩
          (inner ++ [Byte.newline] ++ later) := outcome_blanks hblanks line kept _
    _ = outcome ⟨.code, line + 1, Byte.newline :: kept⟩ later := by
        rw [hstays, outcome_lineComment, lineBody_append hinner, if_pos rfl, List.drop_left]
    _ = outcome ⟨.code, line, kept⟩ (Byte.newline :: later) := rfl

end Stripper

/-! ## Comments in a netlist -/

/-- In code, and not directly behind a slash, a block comment moves the faults of what
follows by its lines and does nothing else.  Where no blank was kept last, a line
comment with any blanks in front of it does nothing at all in front of its newline. -/
theorem strip_comment_invisible {code : Text} (hcode : (modeAfter code).IsCode)
    (hslash : code.getLast? ≠ some Byte.slash) :
    (∀ inner later, ¬ [Byte.star, Byte.slash] <:+: inner →
      strip (code ++ ([Byte.slash, Byte.star] ++ inner ++ [Byte.star, Byte.slash]) ++ later) =
        (strip (code ++ later)).mapError (SourceError.moved (inner.count Byte.newline))) ∧
    ∃ kept, strip code = .ok kept ∧ ((∀ b ∈ kept.getLast?, Byte.isBlank b = false) →
      ∀ blanks inner later, (∀ b ∈ blanks, Byte.isBlank b = true) → Byte.newline ∉ inner →
        strip (code ++ (blanks ++ [Byte.slash, Byte.slash] ++ inner) ++ Byte.newline :: later) =
          strip (code ++ Byte.newline :: later)) := by
  have hmode := modeAfter_eq_code hcode hslash
  unfold modeAfter at hmode
  rcases hread : Stripper.read {} code with ⟨mode, line, kept⟩
  rw [hread] at hmode
  obtain rfl : mode = .code := hmode
  constructor
  · intro inner later hinner
    have hinsert := Stripper.outcome_insert_blockComment hinner line kept later
    rw [← hread, ← strip_append, ← strip_append] at hinsert
    simpa using hinsert
  · refine ⟨kept.reverse, by rw [strip, hread]; rfl, ?_⟩
    intro hkept blanks inner later hblanks hinner
    rw [List.getLast?_reverse] at hkept
    have hinsert := Stripper.outcome_insert_lineComment hblanks hinner hkept line later
    rw [← hread, ← strip_append, ← strip_append] at hinsert
    simpa using hinsert

/-- A literal with a marker stands in front, a keyword, a quote and openers in the
comments, and behind them a block comment that is not closed. -/
theorem strip_comment_invisible_openers :
    (modeAfter (Text.ofString "a = \"//\"; /* b */ c")).IsCode ∧
      (Text.ofString "a = \"//\"; /* b */ c").getLast? ≠ some Byte.slash ∧
      strip (Text.ofString "a = \"//\"; /* b */ c/* endmodule \" /* \n // \\*/ d\n/* e") =
        .error (.unterminatedComment 3) ∧
      strip (Text.ofString "a = \"//\"; /* b */ c \t // endmodule \" /* \\\n d") =
        .ok (Text.ofString "a = \"//\";  c\n d") := by
  have hcode : (modeAfter (Text.ofString "a = \"//\"; /* b */ c")).IsCode := by decide
  have hslash : (Text.ofString "a = \"//\"; /* b */ c").getLast? ≠ some Byte.slash := by decide
  obtain ⟨hblock, kept, hkept, hline⟩ := strip_comment_invisible hcode hslash
  obtain rfl : Text.ofString "a = \"//\";  c" = kept := Except.ok.inj hkept
  have hlast : ∀ b ∈ (Text.ofString "a = \"//\";  c").getLast?, Byte.isBlank b = false := by
    intro b hb
    obtain rfl := Option.some.inj hb
    decide
  have hblanks : ∀ b ∈ Text.ofString " \t ", Byte.isBlank b = true := by decide +kernel
  exact ⟨hcode, hslash,
    hblock (Text.ofString " endmodule \" /* \n // \\") (Text.ofString " d\n/* e") (by decide),
    hline hlast (Text.ofString " \t ") (Text.ofString " endmodule \" /* \\")
      (Text.ofString " d") hblanks (by decide)⟩

end NetlistSplit.Comment
