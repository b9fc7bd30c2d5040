import NetlistSplit.Proofs.Comment.Stripping
import NetlistSplit.Proofs.Literal.Closed
import NetlistSplit.Proofs.Text.Cut

/-!
# Removing comments by copying

The comments of a netlist can be removed without touching its bytes one by one.  A
`Copier` goes over the text with two offsets: what stands between them is read and not
yet copied.  At a comment it copies this run as a whole and looks for the end of the
comment.

All parts of the text that it takes are cut out with `Text.cut?`, and `step?` fails where
a cut would split a character.  In the encoding of a string this never happens: the
copier cuts only at the ends of the text, and where an ASCII byte stands or has just been
read.  Between two cuts it may well stand inside of a character, behind a backslash of a
literal.

## Strategy

The copier takes a token with each step.  What it has copied, with the run that is not yet
copied, is what these tokens keep (`Copier.Reads`).  A step that is handed a token gives a
copier that has read it too (`Copier.Reads.step`), so the copier removes what the reading
token by token removes (`copy?_eq_strip`).
-/

namespace NetlistSplit

namespace Text

/-- The first offset at which a pattern stands in a text. -/
def find? (pattern : Text) : Text → Option Nat
  | [] => if pattern = [] then some 0 else none
  | b :: rest =>
    if pattern.isPrefixOf (b :: rest) then some 0 else (find? pattern rest).map (· + 1)

theorem isPrefix_of_find? {pattern text : Text} {offset : Nat}
    (hfind : find? pattern text = some offset) : pattern <+: text.drop offset := by
  induction text generalizing offset with
  | nil =>
      rw [find?] at hfind
      split at hfind
      · next hnil => exact hnil ▸ List.nil_prefix
      · cases hfind
  | cons b rest ih =>
      rw [find?] at hfind
      split at hfind
      · next hbegins =>
          obtain rfl := Option.some.inj hfind
          exact List.isPrefixOf_iff_prefix.mp hbegins
      · obtain ⟨place, hplace, rfl⟩ := Option.map_eq_some_iff.mp hfind
        exact ih hplace

theorem getElem?_of_find? {pattern text : Text} {offset : Nat}
    (hfind : find? pattern text = some offset) {i : Nat} (hi : i < pattern.length) :
    text[offset + i]? = some pattern[i] := by
  rw [← List.getElem?_drop]
  exact List.prefix_iff_getElem?.mp (isPrefix_of_find? hfind) i hi

/-- A span goes on with what follows it. -/
theorem slice_add {text : Text} {start middle : Nat} (hle : start ≤ middle) (length : Nat) :
    text.slice start (middle + length) =
      text.slice start middle ++ (text.drop middle).take length := by
  have hlength : middle + length - start = middle - start + length := by omega
  have hmiddle : start + (middle - start) = middle := by omega
  rw [slice, slice, hlength, List.take_add, List.drop_drop, hmiddle]

end Text

namespace Comment

/-- A reading of a text that copies what it keeps. -/
structure Copier where
  output : Text := []
  /-- Where the run begins that is read and not yet copied. -/
  pending : Nat := 0
  /-- Where the run ends. -/
  position : Nat := 0
  deriving DecidableEq, Repr

namespace Copier

/-- The offset behind a literal, from an offset inside of it on.  An escape is passed over by
two bytes, whatever character begins behind the backslash. -/
def skipLiteral (source : Text) (offset : Nat) : Nat :=
  match hdrop : source.drop offset with
  | [] => source.length
  | b :: _ =>
    have := Text.lt_length_of_drop hdrop
    if b = Byte.backslash then skipLiteral source (offset + 2)
    else if b = Byte.quote then offset + 1
    else if b = Byte.newline then offset
    else skipLiteral source (offset + 1)
termination_by source.length - offset

/-- The output with the run up to `stop` copied to it. -/
def copied? (source : Text) (s : Copier) (stop : Nat) : Option Text :=
  (source.cut? s.pending stop).map (s.output ++ ·)

/-- An output without the blanks at its end. -/
def trimmed? (output : Text) : Option Text :=
  output.cut? 0 (output.rdropWhile Byte.isBlank).length

/-- What a step comes to: the reading goes on, or it ends with a result. -/
inductive Step where
  | goesOn (next : Copier)
  | ends (result : Except SourceError Text)
  deriving DecidableEq, Repr

/-- The end of the text: the last run is copied. -/
def finish? (source : Text) (s : Copier) : Option Step := do
  let output ← s.copied? source source.length
  return .ends (.ok output)

/-- A line comment at the position. -/
def passLine? (source : Text) (s : Copier) : Option Step := do
  let copied ← s.copied? source s.position
  let output ← trimmed? copied
  let tail ← source.cut? s.position source.length
  match Text.find? [Byte.newline] tail with
  | some offset =>
    let stop := s.position + offset + 1
    return .goesOn ⟨output ++ [Byte.newline], stop, stop⟩
  | none => return .goesOn ⟨output, source.length, source.length⟩

/-- A block comment at the position. -/
def passBlock? (source : Text) (s : Copier) : Option Step := do
  let output ← s.copied? source s.position
  let tail ← source.cut? (s.position + 2) source.length
  match Text.find? [Byte.star, Byte.slash] tail with
  | some offset =>
    let stop := s.position + 2 + offset + 2
    return .goesOn ⟨output, stop, stop⟩
  | none =>
    let line ← source.lineAt? s.position
    return .ends (.error (.unterminatedComment line))

/-- One step, if all of its cuts are between two characters. -/
def step? (source : Text) (s : Copier) : Option Step :=
  match source.drop s.position with
  | [] => s.finish? source
  | b :: rest =>
    if b = Byte.quote then
      some (.goesOn { s with position := skipLiteral source (s.position + 1) })
    else if b = Byte.slash ∧ rest.head? = some Byte.slash then s.passLine? source
    else if b = Byte.slash ∧ rest.head? = some Byte.star then s.passBlock? source
    else some (.goesOn { s with position := s.position + 1 })

/-! ## Where a token ends -/

theorem skipLiteral_of_ge {source : Text} {offset : Nat} (hge : source.length ≤ offset) :
    skipLiteral source offset = source.length := by
  rw [skipLiteral]
  split
  · rfl
  · next b rest hdrop => exact absurd (Text.lt_length_of_drop hdrop) (Nat.not_lt_of_le hge)

/-- Also where a backslash is the last byte, the offset behind a literal is inside of the
text. -/
theorem skipLiteral_eq {source : Text} {offset : Nat} (hle : offset ≤ source.length) :
    skipLiteral source offset = offset + (literalBody (source.drop offset)).1.length := by
  fun_induction skipLiteral source offset with
  | case1 offset hdrop =>
      have hge := List.drop_eq_nil_iff.mp hdrop
      rw [hdrop, literalBody_nil, List.length_nil]
      omega
  | case2 offset rest hdrop hlt ih =>
      have hrest : source.drop (offset + 1) = rest := Text.drop_succ_of_drop hdrop
      cases rest with
      | nil =>
          have hge := List.drop_eq_nil_iff.mp hrest
          rw [hdrop, skipLiteral_of_ge (by omega)]
          show source.length = offset + 1
          omega
      | cons taken later =>
          have htaken := Text.lt_length_of_drop hrest
          rw [ih (by omega), Text.drop_succ_of_drop hrest, hdrop, literalBody_backslash]
          simp only [List.length_cons]
          omega
  | case3 offset rest hdrop hlt hne =>
      rw [hdrop, literalBody_quote, List.length_singleton]
  | case4 offset rest hdrop hlt hne hquote =>
      rw [hdrop, literalBody_newline, List.length_nil, Nat.add_zero]
  | case5 offset b rest hdrop hlt hbackslash hquote hnewline ih =>
      have hrest : source.drop (offset + 1) = rest := Text.drop_succ_of_drop hdrop
      rw [ih (by omega), hrest, hdrop, literalBody_of_ne rest hquote hnewline hbackslash,
        List.length_cons]
      omega

/-- A line comment ends behind the first newline. -/
theorem find?_newline (text : Text) :
    (Text.find? [Byte.newline] text).map (· + 1) =
      if (lineBody text).2 then some (lineBody text).1.length else none := by
  fun_induction lineBody text with
  | case1 => rfl
  | case2 rest => rfl
  | case3 b rest hnewline ih =>
      have hbegins : ¬ [Byte.newline].isPrefixOf (b :: rest) = true := by
        simp [Ne.symm hnewline]
      rw [Text.find?, if_neg hbegins, ih]
      split <;> rfl

/-- A block comment ends behind the first `*/`. -/
theorem find?_closer (text : Text) :
    (Text.find? [Byte.star, Byte.slash] text).map (· + 2) =
      if (blockBody text).2 then some (blockBody text).1.length else none := by
  fun_induction blockBody text with
  | case1 => rfl
  | case2 b rest hcloser =>
      obtain ⟨rfl, hslash⟩ := hcloser
      obtain ⟨later, rfl⟩ := List.head?_eq_some_iff.mp hslash
      rfl
  | case3 b rest hcloser ih =>
      have hbegins : ¬ [Byte.star, Byte.slash].isPrefixOf (b :: rest) = true := by
        rw [List.isPrefixOf_iff_prefix]
        rintro ⟨later, htext⟩
        obtain ⟨rfl, rfl⟩ := List.cons.inj htext
        exact hcloser ⟨rfl, rfl⟩
      have hmap : ((Text.find? [Byte.star, Byte.slash] rest).map (· + 1)).map (· + 2) =
          ((Text.find? [Byte.star, Byte.slash] rest).map (· + 2)).map (· + 1) := by
        rw [Option.map_map, Option.map_map]
        rfl
      rw [Text.find?, if_neg hbegins, hmap, ih]
      split <;> rfl

/-! ## What has been read -/

/-- Whether a copier has read the tokens `done` of a text, has still to read `rest`, and can
cut off the run between its offsets. -/
structure Reads (s : Copier) (source : Text) (done : List Token) (rest : Text) : Prop where
  source_eq : done.flatMap Token.text ++ rest = source
  position_eq : s.position = (done.flatMap Token.text).length
  pending_le : s.pending ≤ s.position
  mayCut : source.MayCut s.pending
  isString : s.output.IsString
  kept_eq : s.output ++ source.slice s.pending s.position = keptText done

theorem reads_start (source : Text) : Reads {} source [] source where
  source_eq := rfl
  position_eq := rfl
  pending_le := Nat.le_refl 0
  mayCut := Text.mayCut_zero source
  isString := Text.isString_nil
  kept_eq := rfl

namespace Reads

variable {s : Copier} {source rest : Text} {done : List Token} {token : Token}

theorem drop_position (hs : s.Reads source done rest) : source.drop s.position = rest := by
  rw [← hs.source_eq, hs.position_eq, List.drop_left]

theorem position_le (hs : s.Reads source done rest) : s.position ≤ source.length := by
  rw [hs.position_eq, ← hs.source_eq, List.length_append]
  exact Nat.le_add_right _ _

/-- Nothing is left at the end of the text. -/
theorem position_eq_length (hs : s.Reads source done []) : s.position = source.length := by
  rw [hs.position_eq, ← hs.source_eq, List.append_nil]

theorem byte_at (hs : s.Reads source done rest) (i : Nat) : source[s.position + i]? = rest[i]? := by
  rw [← List.getElem?_drop, hs.drop_position]

/-- The run is copied where the text may be cut. -/
theorem copied?_eq (hs : s.Reads source done rest) (hcut : source.MayCut s.position) :
    s.copied? source s.position = some (keptText done) := by
  rw [copied?, Text.cut?_eq_slice hs.pending_le hs.mayCut hcut, Option.map_some, hs.kept_eq]

theorem isString_kept (hstring : source.IsString) (hs : s.Reads source done rest)
    (hcut : source.MayCut s.position) : (keptText done).IsString := by
  rw [← hs.kept_eq]
  exact hs.isString.append (hstring.slice hs.pending_le hs.mayCut hcut)

/-- A token that is kept makes the run longer. -/
theorem keep (hs : s.Reads source done (token.text ++ rest))
    (hkeeps : token.addTo (keptText done) = keptText done ++ token.text) :
    Reads { s with position := s.position + token.text.length } source (done ++ [token]) rest where
  source_eq := by
    rw [flatMap_text_concat, List.append_assoc, hs.source_eq]
  position_eq := by
    rw [flatMap_text_concat, List.length_append, hs.position_eq]
  pending_le := Nat.le_add_right_of_le hs.pending_le
  mayCut := hs.mayCut
  isString := hs.isString
  kept_eq := by
    rw [keptText_concat, hkeeps, Text.slice_add hs.pending_le, ← List.append_assoc, hs.kept_eq,
      hs.drop_position, List.take_left]

/-- Behind a comment the next run begins. -/
theorem restart (hs : s.Reads source done (token.text ++ rest)) {output : Text} {stop : Nat}
    (hstop : stop = s.position + token.text.length) (hcut : source.MayCut stop)
    (hstring : output.IsString) (hadds : token.addTo (keptText done) = output) :
    Reads ⟨output, stop, stop⟩ source (done ++ [token]) rest where
  source_eq := by
    rw [flatMap_text_concat, List.append_assoc, hs.source_eq]
  position_eq := by
    rw [flatMap_text_concat, List.length_append, ← hs.position_eq, hstop]
  pending_le := Nat.le_refl stop
  mayCut := hcut
  isString := hstring
  kept_eq := by
    rw [keptText_concat, hadds, Text.slice, Nat.sub_self, List.take_zero, List.append_nil]

end Reads

/-! ## One step -/

theorem ascii_of_isBlank {b : UInt8} (hblank : Byte.isBlank b = true) : b &&& 0x80 = 0 := by
  rcases Bool.or_eq_true_iff.mp hblank with hb | hb
  · rw [beq_iff_eq.mp hb]
    rfl
  · rw [beq_iff_eq.mp hb]
    rfl

/-- Blanks are characters of their own, so they can be cut off. -/
theorem trimmed?_eq {output : Text} (hstring : output.IsString) :
    trimmed? output = some (output.rdropWhile Byte.isBlank) ∧
      Text.IsString (output.rdropWhile Byte.isBlank) := by
  have hsplit : output.rdropWhile Byte.isBlank ++ output.rtakeWhile Byte.isBlank = output :=
    List.rdropWhile_append_rtakeWhile
  have hcut : output.MayCut (output.rdropWhile Byte.isBlank).length := by
    cases hblanks : output.rtakeWhile Byte.isBlank with
    | nil =>
        rw [hblanks, List.append_nil] at hsplit
        rw [hsplit]
        exact Text.mayCut_length output
    | cons b later =>
        have hblank : Byte.isBlank b = true :=
          List.mem_rtakeWhile_imp (hblanks ▸ List.mem_cons_self)
        have hbyte : output[(output.rdropWhile Byte.isBlank).length]? = some b := by
          rw [hblanks] at hsplit
          rw [← List.head?_drop]
          nth_rewrite 2 [← hsplit]
          rw [List.drop_left, List.head?_cons]
        exact Text.mayCut_of_ascii hbyte (ascii_of_isBlank hblank)
  have htake : output.take (output.rdropWhile Byte.isBlank).length =
      output.rdropWhile Byte.isBlank :=
    (List.prefix_iff_eq_take.mp (List.rdropWhile_prefix _ _)).symm
  refine ⟨(Text.cut?_zero hcut).trans (congrArg some htake), ?_⟩
  have hslice := hstring.slice (Nat.zero_le _) (Text.mayCut_zero output) hcut
  rwa [Text.slice, List.drop_zero, Nat.sub_zero, htake] at hslice

/-- A line comment is passed over, and what stands in front of it is copied without its
blanks. -/
theorem Reads.passLine {s : Copier} {source body rest : Text} {done : List Token} {closed : Bool}
    (hstring : source.IsString)
    (hs : s.Reads source done (Byte.slash :: Byte.slash :: (body ++ rest)))
    (hbody : lineBody (body ++ rest) = (body, closed)) :
    ∃ next, s.passLine? source = some (.goesOn next) ∧
      next.Reads source (done ++ [.lineComment (Byte.slash :: Byte.slash :: body) closed])
        rest := by
  have hcut : source.MayCut s.position := Text.mayCut_of_ascii (hs.byte_at 0) rfl
  obtain ⟨htrimmed, houtput⟩ := trimmed?_eq (hs.isString_kept hstring hcut)
  have hread : lineBody (Byte.slash :: Byte.slash :: (body ++ rest)) =
      (Byte.slash :: Byte.slash :: body, closed) := by
    simp [lineBody, hbody, Byte.slash, Byte.newline]
  have hfind := find?_newline (Byte.slash :: Byte.slash :: (body ++ rest))
  rw [hread] at hfind
  simp only [passLine?, hs.copied?_eq hcut, htrimmed, Text.cut?_length hcut, hs.drop_position,
    Option.bind_eq_bind, Option.bind_some]
  cases hoffset : Text.find? [Byte.newline] (Byte.slash :: Byte.slash :: (body ++ rest)) with
  | none =>
      rw [hoffset] at hfind
      cases closed with
      | true => cases hfind
      | false =>
          -- Without its newline the comment is the end of the text.
          obtain rfl := eq_nil_of_lineBody hbody
          refine ⟨_, rfl, hs.restart ?_ (Text.mayCut_length source) houtput (List.append_nil _)⟩
          rw [hs.position_eq, ← hs.source_eq, List.length_append, List.append_nil]
          rfl
  | some offset =>
      rw [hoffset] at hfind
      cases closed with
      | false => cases hfind
      | true =>
          have hlength : offset + 1 = (Byte.slash :: Byte.slash :: body).length :=
            Option.some.inj hfind
          have hbyte : source[s.position + offset]? = some Byte.newline := by
            rw [hs.byte_at]
            exact Text.getElem?_of_find? hoffset Nat.zero_lt_one
          refine ⟨_, rfl, hs.restart ?_ (hstring.mayCut_succ hbyte rfl)
            (houtput.append Text.isString_newline) rfl⟩
          rw [Token.text, ← hlength, Nat.add_assoc]

/-- A block comment is passed over if it is closed. -/
theorem Reads.passBlock {s : Copier} {source body rest : Text} {done : List Token} {closed : Bool}
    (hstring : source.IsString)
    (hs : s.Reads source done (Byte.slash :: Byte.star :: (body ++ rest)))
    (hbody : blockBody (body ++ rest) = (body, closed)) :
    if closed then
      ∃ next, s.passBlock? source = some (.goesOn next) ∧
        next.Reads source (done ++ [.blockComment (Byte.slash :: Byte.star :: body) closed]) rest
    else s.passBlock? source =
      some (.ends (.error (.unterminatedComment (source.lineAt s.position)))) := by
  have hcut : source.MayCut s.position := Text.mayCut_of_ascii (hs.byte_at 0) rfl
  have hinside : source.MayCut (s.position + 2) := hstring.mayCut_succ (hs.byte_at 1) rfl
  have htail : source.drop (s.position + 2) = body ++ rest :=
    Text.drop_succ_of_drop (Text.drop_succ_of_drop hs.drop_position)
  have hfind := find?_closer (body ++ rest)
  rw [hbody] at hfind
  simp only [passBlock?, hs.copied?_eq hcut, Text.cut?_length hinside, htail,
    Text.lineAt?_eq hcut, Option.bind_eq_bind, Option.bind_some]
  cases hoffset : Text.find? [Byte.star, Byte.slash] (body ++ rest) with
  | none =>
      rw [hoffset] at hfind
      cases closed with
      | true => cases hfind
      | false => rfl
  | some offset =>
      rw [hoffset] at hfind
      cases closed with
      | false => cases hfind
      | true =>
          have hlength : offset + 2 = body.length := Option.some.inj hfind
          have hbyte : source[s.position + 2 + offset + 1]? = some Byte.slash := by
            rw [Nat.add_assoc, ← List.getElem?_drop, htail]
            exact Text.getElem?_of_find? hoffset (i := 1) (by decide)
          refine ⟨_, rfl, hs.restart ?_ (hstring.mayCut_succ hbyte rfl)
            (hs.isString_kept hstring hcut) rfl⟩
          rw [Token.text, List.length_cons, List.length_cons, ← hlength]
          omega

/-- A step of a copier takes the token that it is handed. -/
theorem Reads.step {s : Copier} {source rest : Text} {done : List Token} {token : Token}
    (hstring : source.IsString) (hs : s.Reads source done (token.text ++ rest))
    (hleads : token.Leads rest) :
    if token.isUnclosedComment then
      s.step? source = some (.ends (.error (.unterminatedComment (source.lineAt s.position))))
    else ∃ next, s.step? source = some (.goesOn next) ∧
      next.Reads source (done ++ [token]) rest := by
  cases hleads with
  | @code b rest hquote hopener =>
      have hdrop : source.drop s.position = b :: rest := hs.drop_position
      have hline : ¬ (b = Byte.slash ∧ rest.head? = some Byte.slash) :=
        fun hboth => (hopener hboth.1).1 hboth.2
      have hblock : ¬ (b = Byte.slash ∧ rest.head? = some Byte.star) :=
        fun hboth => (hopener hboth.1).2 hboth.2
      refine ⟨_, ?_, hs.keep rfl⟩
      simp only [step?, hdrop, if_neg hquote, if_neg hline, if_neg hblock]
      rfl
  | @literal body rest closed hbody =>
      have hdrop : source.drop s.position = Byte.quote :: (body ++ rest) := hs.drop_position
      have hlt := Text.lt_length_of_drop hdrop
      have hskip : skipLiteral source (s.position + 1) =
          s.position + (Token.literal (Byte.quote :: body) closed).text.length := by
        rw [skipLiteral_eq hlt, Text.drop_succ_of_drop hdrop, hbody, Token.text, List.length_cons]
        exact Nat.succ_add_eq_add_succ ..
      refine ⟨_, ?_, hs.keep rfl⟩
      simp only [step?, hdrop, hskip, if_pos]
  | @lineComment body rest closed hbody =>
      have hstep : s.step? source = s.passLine? source := by
        rw [step?, hs.drop_position]
        rfl
      rw [hstep]
      exact hs.passLine hstring hbody
  | @blockComment body rest closed hbody =>
      have hstep : s.step? source = s.passBlock? source := by
        rw [step?, hs.drop_position]
        rfl
      have hpass := hs.passBlock hstring hbody
      rw [hstep]
      cases closed <;> exact hpass

/-- At the end of the text the last run is copied. -/
theorem Reads.finish {s : Copier} {source : Text} {done : List Token}
    (hs : s.Reads source done []) :
    s.step? source = some (.ends (.ok (keptText done))) := by
  have hcut : source.MayCut s.position := hs.position_eq_length ▸ Text.mayCut_length source
  have hstep : s.step? source = s.finish? source := by
    rw [step?, hs.drop_position]
  rw [hstep, finish?, ← hs.position_eq_length, hs.copied?_eq hcut]
  rfl

/-! ## All steps -/

/-- Whether steps lead from the beginning of the text to a copier. -/
inductive Reached (source : Text) : Copier → Prop where
  | start : Reached source {}
  | step {s next : Copier} (hs : Reached source s) (hstep : s.step? source = some (.goesOn next)) :
      Reached source next

/-- A step ends the reading at the end of the text or at a fault, and else reads a token. -/
theorem Reads.step_cases {s : Copier} {source rest : Text} {done : List Token}
    (hstring : source.IsString) (hs : s.Reads source done rest) :
    (rest = [] ∧ s.step? source = some (.ends (.ok (keptText done)))) ∨
      (∃ fault, s.step? source = some (.ends (.error fault))) ∨
      ∃ next token later, s.step? source = some (.goesOn next) ∧
        next.Reads source (done ++ [token]) later := by
  cases rest with
  | nil => exact .inl ⟨rfl, hs.finish⟩
  | cons b rest =>
      obtain ⟨token, later, htext, hleads⟩ := Token.exists_leads b rest
      rw [htext] at hs
      have hstep := hs.step hstring hleads
      split at hstep
      · exact .inr (.inl ⟨_, hstep⟩)
      · obtain ⟨next, hgoes, hnext⟩ := hstep
        exact .inr (.inr ⟨next, token, later, hgoes, hnext⟩)

theorem Reached.exists_reads {s : Copier} {source : Text} (hstring : source.IsString)
    (hs : Reached source s) : ∃ done rest, s.Reads source done rest := by
  induction hs with
  | start => exact ⟨[], source, reads_start source⟩
  | @step s next hs hstep ih =>
      obtain ⟨done, rest, hreads⟩ := ih
      rcases hreads.step_cases hstring with
        ⟨-, hends⟩ | ⟨fault, hends⟩ | ⟨other, token, later, hother, hnext⟩
      · rw [hends] at hstep
        cases hstep
      · rw [hends] at hstep
        cases hstep
      · rw [hother] at hstep
        cases hstep
        exact ⟨_, _, hnext⟩

theorem position_lt_of_passLine? {s next : Copier} {source : Text}
    (hlt : s.position < source.length) (hpass : s.passLine? source = some (.goesOn next)) :
    s.position < next.position := by
  obtain ⟨copied, -, hpass⟩ := Option.bind_eq_some_iff.mp hpass
  obtain ⟨output, -, hpass⟩ := Option.bind_eq_some_iff.mp hpass
  obtain ⟨tail, -, hpass⟩ := Option.bind_eq_some_iff.mp hpass
  split at hpass
  · next offset hoffset =>
      obtain rfl := Step.goesOn.inj (Option.some.inj hpass)
      simp only
      omega
  · obtain rfl := Step.goesOn.inj (Option.some.inj hpass)
    exact hlt

theorem position_lt_of_passBlock? {s next : Copier} {source : Text}
    (hpass : s.passBlock? source = some (.goesOn next)) : s.position < next.position := by
  obtain ⟨output, -, hpass⟩ := Option.bind_eq_some_iff.mp hpass
  obtain ⟨tail, -, hpass⟩ := Option.bind_eq_some_iff.mp hpass
  split at hpass
  · next offset hoffset =>
      obtain rfl := Step.goesOn.inj (Option.some.inj hpass)
      simp only
      omega
  · obtain ⟨line, -, hends⟩ := Option.bind_eq_some_iff.mp hpass
    cases hends

/-- Each step that does not end the reading moves the position on. -/
theorem position_lt_of_step? {s next : Copier} {source : Text}
    (hstep : s.step? source = some (.goesOn next)) :
    s.position < source.length ∧ s.position < next.position := by
  rw [step?] at hstep
  split at hstep
  · obtain ⟨output, -, hends⟩ := Option.bind_eq_some_iff.mp hstep
    cases hends
  next b rest hdrop =>
  have hlt := Text.lt_length_of_drop hdrop
  refine ⟨hlt, ?_⟩
  split at hstep
  · obtain rfl := Step.goesOn.inj (Option.some.inj hstep)
    simp only [skipLiteral_eq hlt]
    omega
  split at hstep
  · exact position_lt_of_passLine? hlt hstep
  split at hstep
  · exact position_lt_of_passBlock? hstep
  · obtain rfl := Step.goesOn.inj (Option.some.inj hstep)
    exact Nat.lt_add_one _

/-- Wherever a copier has come to, its next step cuts no character, and moves it on inside of
the text. -/
theorem Reached.advances {s : Copier} {source : Text} (hstring : source.IsString)
    (hs : Reached source s) :
    s.pending ≤ s.position ∧ s.position ≤ source.length ∧ source.MayCut s.pending ∧
      ∃ step, s.step? source = some step ∧ ∀ next, step = .goesOn next →
        s.position < next.position ∧ next.position ≤ source.length := by
  obtain ⟨done, rest, hreads⟩ := hs.exists_reads hstring
  have hsome : ∃ step, s.step? source = some step := by
    rcases hreads.step_cases hstring with
      ⟨-, hends⟩ | ⟨fault, hends⟩ | ⟨next, token, later, hgoes, -⟩
    · exact ⟨_, hends⟩
    · exact ⟨_, hends⟩
    · exact ⟨_, hgoes⟩
  obtain ⟨step, hstep⟩ := hsome
  refine ⟨hreads.pending_le, hreads.position_le, hreads.mayCut, step, hstep, ?_⟩
  rintro next rfl
  obtain ⟨_, _, hnext⟩ := (hs.step hstep).exists_reads hstring
  exact ⟨(position_lt_of_step? hstep).2, hnext.position_le⟩

/-- What the steps of a copier come to. -/
def run? (source : Text) (s : Copier) : Option (Except SourceError Text) :=
  match hstep : s.step? source with
  | none => none
  | some (.ends result) => some result
  | some (.goesOn next) =>
    have := position_lt_of_step? hstep
    next.run? source
termination_by source.length - s.position

theorem run?_of_ends {s : Copier} {source : Text} {result : Except SourceError Text}
    (hstep : s.step? source = some (.ends result)) : s.run? source = some result := by
  rw [run?]
  split
  · next hnone => rw [hnone] at hstep; cases hstep
  · next other hends => rw [hends] at hstep; cases hstep; rfl
  · next next hgoes => rw [hgoes] at hstep; cases hstep

theorem run?_of_goesOn {s next : Copier} {source : Text}
    (hstep : s.step? source = some (.goesOn next)) : s.run? source = next.run? source := by
  rw [run?]
  split
  · next hnone => rw [hnone] at hstep; cases hstep
  · next result hends => rw [hends] at hstep; cases hstep
  · next other hgoes => rw [hgoes] at hstep; cases hstep; rfl

/-- What the steps come to is the result of the last of them. -/
theorem Reached.exists_ends {s : Copier} {source : Text} {result : Except SourceError Text}
    (hs : Reached source s) (hrun : s.run? source = some result) :
    ∃ last, Reached source last ∧ last.step? source = some (.ends result) := by
  fun_induction run? source s with
  | case1 s hnone => cases hrun
  | case2 s other hends =>
      obtain rfl := Option.some.inj hrun
      exact ⟨s, hs, hends⟩
  | case3 s next hgoes hlt ih => exact ih (hs.step hgoes) hrun

theorem Reached.isString_of_ends {s : Copier} {source text : Text} (hstring : source.IsString)
    (hs : Reached source s) (hends : s.step? source = some (.ends (.ok text))) : text.IsString := by
  obtain ⟨done, rest, hreads⟩ := hs.exists_reads hstring
  rcases hreads.step_cases hstring with
    ⟨rfl, hok⟩ | ⟨fault, herror⟩ | ⟨next, token, later, hgoes, -⟩
  · rw [hok] at hends
    obtain rfl := Except.ok.inj (Step.ends.inj (Option.some.inj hends))
    exact hreads.isString_kept hstring (hreads.position_eq_length ▸ Text.mayCut_length source)
  · rw [herror] at hends
    cases hends
  · rw [hgoes] at hends
    cases hends

/-- The copier ends with what the tokens keep, or at the first block comment that is not
closed. -/
theorem Reads.run?_eq {s : Copier} {source rest : Text} {done : List Token}
    (hstring : source.IsString) (hs : s.Reads source done rest) :
    s.run? source =
      match unclosedFrom s.position (tokens rest) with
      | some opener => some (.error (.unterminatedComment (source.lineAt opener)))
      | none => some (.ok ((tokens rest).foldl Token.addTo (keptText done))) := by
  induction rest using reading_induction generalizing s done with
  | nil => exact run?_of_ends hs.finish
  | token token rest hleads ih =>
      have hstep := hs.step hstring hleads
      rw [tokens_append hleads, unclosedFrom]
      split at hstep
      · next hunclosed =>
          rw [if_pos hunclosed]
          exact run?_of_ends hstep
      · next hunclosed =>
          obtain ⟨next, hgoes, hnext⟩ := hstep
          have hposition : next.position = s.position + token.text.length := by
            rw [hnext.position_eq, hs.position_eq, flatMap_text_concat, List.length_append]
          rw [if_neg hunclosed, run?_of_goesOn hgoes, ih hnext, hposition, keptText_concat,
            List.foldl_cons]

end Copier

/-- The text without its comments, unless a cut would split a character. -/
def copy? (source : Text) : Option (Except SourceError Text) :=
  Copier.run? source {}

theorem copy?_eq_strip {source : Text} (hstring : source.IsString) :
    copy? source = some (strip source) := by
  have hrun := (Copier.reads_start source).run?_eq hstring
  rw [copy?, hrun, strip_eq_keptText]
  cases hunclosed : unclosedFrom 0 (tokens source) <;> rfl

/-- Without its comments a netlist is still the encoding of a string. -/
theorem isString_of_strip {source text : Text} (hstring : source.IsString)
    (hstrip : strip source = .ok text) : text.IsString := by
  have hcopy := (copy?_eq_strip hstring).trans (congrArg some hstrip)
  obtain ⟨last, hlast, hends⟩ := Copier.Reached.start.exists_ends hcopy
  exact hlast.isString_of_ends hstring hends

end Comment

end NetlistSplit
