import NetlistSplit.Proofs.Literal.Agreement
import NetlistSplit.Proofs.Run.Outcome
import NetlistSplit.Proofs.Scanner.Stretch

/-!
# Files without comments

A block that begins in code holds no comments (`split_commentFree`).  A block that
begins inside a literal may hold some: what stood in the literal is code in the file
of the block.  For the search of keywords finds those in a literal that is not closed
on its line.  Where every literal is closed on its line, all blocks begin in code, and
no file that a run writes holds a comment.

## Strategy

In text without comments, the opener of a block that begins in code is a token
boundary.  So the text from there on holds no comments (`strip_of_tokens_append`), and
neither does the block, with which that text begins (`strip_of_append`).
-/

namespace NetlistSplit

namespace Comment

/-- From a byte outside of literals on, a text without comments holds none. -/
theorem strip_drop_of_not_literal {text : Text} {offset : Nat} (hstrip : strip text = .ok text)
    (hoffset : offset < text.length) (houtside : inLiteral text offset = false) :
    strip (text.drop offset) = .ok (text.drop offset) := by
  obtain ⟨first, b, second, htokens, hlength⟩ :=
    exists_split_of_not_literal (strip_eq_self_iff.mp hstrip)
      (by rw [flatMap_text_tokens]; exact hoffset) houtside
  have hrest := strip_of_tokens_append hstrip htokens
  rw [hlength] at hrest
  exact hrest

/-! ## Literals that are closed on their lines -/

theorem mem_of_tokenAt {list : List Token} {offset : Nat} {token : Token}
    (htoken : tokenAt list offset = some token) : token ∈ list := by
  induction list generalizing offset with
  | nil => cases htoken
  | cons first later ih =>
      rw [tokenAt] at htoken
      split at htoken
      · obtain rfl := Option.some.inj htoken
        exact List.mem_cons_self
      · exact List.mem_cons_of_mem _ (ih htoken)

/-- The byte at an offset is one of the token to which it belongs. -/
theorem mem_text_of_tokenAt {list : List Token} {offset : Nat} {token : Token} {b : UInt8}
    (htoken : tokenAt list offset = some token)
    (hb : (list.flatMap Token.text)[offset]? = some b) : b ∈ token.text := by
  induction list generalizing offset with
  | nil => cases htoken
  | cons first later ih =>
      rw [List.flatMap_cons] at hb
      rw [tokenAt] at htoken
      split at htoken
      · next hinside =>
          obtain rfl := Option.some.inj htoken
          rw [List.getElem?_append_left hinside] at hb
          exact List.mem_of_getElem? hb
      · next hbehind =>
          rw [List.getElem?_append_right (Nat.le_of_not_lt hbehind)] at hb
          exact ih htoken hb

section

variable {text : Text} (hclosed : ∀ token ∈ tokens text, token.isOpenLiteral = false)
include hclosed

theorem inOpenLiteral_of_closed (offset : Nat) : inOpenLiteral text offset = false := by
  unfold inOpenLiteral
  cases htoken : tokenAt (tokens text) offset with
  | none => rfl
  | some token => exact hclosed token (mem_of_tokenAt htoken)

theorem inContinuedLine_of_closed (offset : Nat) : inContinuedLine text offset = false := by
  unfold inContinuedLine
  split
  · rfl
  · next newline hstart =>
      have hnewline := text.newline_of_lineStart_eq hstart
      unfold inLiteral
      cases htoken : tokenAt (tokens text) newline with
      | none => rfl
      | some token =>
          have hmem : Byte.newline ∈ token.text :=
            mem_text_of_tokenAt htoken (by rw [flatMap_text_tokens]; exact hnewline)
          have hopen := hclosed token (mem_of_tokenAt htoken)
          cases token with
          | literal body closed => simp_all [Token.isOpenLiteral, Token.text]
          | _ => rfl

end

end Comment

namespace Scanner

/-- A block that begins in code holds no comments. -/
theorem strip_block {code : Text} {block : Block} (hstrip : Comment.strip code = .ok code)
    (hblock : .ok block ∈ (ofText code).items)
    (houtside : Comment.inLiteral code block.offset = false) :
    Comment.strip block.text = .ok block.text := by
  obtain ⟨k, hk, -, hstart⟩ := exists_opener_of_mem_items hblock
  obtain ⟨span, -, -, hvalue⟩ := exists_span_of_mem_items hblock
  have hbounds := Keyword.bounds_of_mem_search hk
  have hdrop := Comment.strip_drop_of_not_literal hstrip (by omega) houtside
  have htext : block.text = (code.drop block.offset).take (span.stop - span.start) := by
    rw [hvalue]
    rfl
  rw [htext]
  apply Comment.strip_of_append
  rw [List.take_append_drop]
  exact hdrop

/-- Where literals are closed on their lines, blocks begin in code. -/
theorem inLiteral_of_closed {code : Text} {block : Block} (hstrip : Comment.strip code = .ok code)
    (hclosed : ∀ token ∈ Comment.tokens code, token.isOpenLiteral = false)
    (hblock : .ok block ∈ (ofText code).items) :
    Comment.inLiteral code block.offset = false := by
  obtain ⟨k, hk, -, hstart⟩ := exists_opener_of_mem_items hblock
  obtain ⟨-, hoccurs, hhides⟩ := Keyword.mem_search_iff.mp hk
  obtain ⟨b, hb, hidentifier⟩ := hoccurs.exists_head
  have hquote : b ≠ Byte.quote := by
    rintro rfl
    cases hidentifier
  have hnewline : b ≠ Byte.newline := by
    rintro rfl
    cases hidentifier
  rw [Comment.hides_iff_inLiteral (Comment.rereads_tokens_of_strip hstrip) hb hquote hnewline
    (Comment.inContinuedLine_of_closed hclosed _)] at hhides
  rw [← hstart]
  apply Bool.eq_false_iff.mpr
  intro hliteral
  exact hhides ⟨hliteral, Comment.inOpenLiteral_of_closed hclosed _⟩

end Scanner

namespace FileTree

/-- Whether `dir` leads to a directory, and whatever lies below that one is a file whose
content is `allowed`. -/
def HoldsOnly (tree : FileTree) (dir : Path) (allowed : Text → Prop) : Prop :=
  ∃ place, tree.locate .use dir = .ok (.found place .dir) ∧
    ∀ below, below ≠ [] → ∀ entry, tree.get? (place ++ below) = some entry →
      ∃ content, entry = .file content ∧ allowed content

end FileTree

namespace Run

variable {ε : Type}

/-- A run that has prepared the output directory leaves nothing in it but the texts of
blocks. -/
theorem Outcome.holdsOnly {run : Run ε} {observe : FileTree → WrittenModule → ε} {config : Config}
    {prepared : FileTree} {items : List (Except SourceError Block)} {place : Location}
    {blocks : List Block} (houtcome : run.Outcome observe config prepared items place blocks) :
    run.tree.HoldsOnly config.outputDir fun content =>
      ∃ block, .ok block ∈ items ∧ content = block.text := by
  refine ⟨place, houtcome.holds.located, ?_⟩
  intro below hbelow entry hentry
  obtain ⟨block, hblock, -, rfl⟩ := (houtcome.holds.get?_iff below hbelow entry).mp hentry
  refine ⟨block.text, rfl, block, ?_, rfl⟩
  apply List.mem_of_mem_take
  rw [houtcome.items_eq]
  exact List.mem_map_of_mem hblock

/-- Blocks that begin in code hold no comments, and where literals are closed on their
lines all blocks do so.  Once the output directory has been prepared, a run leaves
nothing in it but the texts of blocks, also if it fails later. -/
theorem split_commentFree (observe : FileTree → WrittenModule → ε) (config : Config)
    {raw code : Text} (hstrip : Comment.strip raw = .ok code) :
    (∀ block, .ok block ∈ (Scanner.ofText code).items →
      Comment.inLiteral code block.offset = false → Comment.strip block.text = .ok block.text) ∧
    ((∀ token ∈ Comment.tokens code, token.isOpenLiteral = false) →
      ∀ block, .ok block ∈ (Scanner.ofText code).items →
        Comment.strip block.text = .ok block.text) ∧
    ∀ tree prepared : FileTree, tree.WellFormed → config.outputDir.IsPlain →
      tree.readNetlist config.input = .ok raw →
      tree.prepareOutput config.outputDir = (.ok (), prepared) →
      (split observe config tree).tree.HoldsOnly config.outputDir fun content =>
        ∃ block, .ok block ∈ (Scanner.ofText code).items ∧ content = block.text := by
  have hself : Comment.strip code = .ok code :=
    Comment.strip_eq_self_iff.mpr
      (Comment.isComment_of_rereads (Comment.rereads_tokens_of_strip hstrip))
  refine ⟨fun block => Scanner.strip_block hself, ?closed, ?files⟩
  case closed =>
    intro hclosed block hblock
    exact Scanner.strip_block hself hblock (Scanner.inLiteral_of_closed hself hclosed hblock)
  case files =>
    intro tree prepared htree hdir hread hprepare
    obtain ⟨place, hfresh⟩ := isFresh_of_prepareOutput htree hdir hprepare
    have hsplit : split observe config tree =
        ofPlan observe config (Plan.ofItems [] (Scanner.ofText code).items) prepared := by
      simp [split, Plan.ofNetlist, hread, hstrip, hprepare, Except.map]
    have hslash : ∀ block : Block, .ok block ∈ (Scanner.ofText code).items →
        '/' ∉ block.name.toList := fun _ => Scanner.slash_notMem_of_mem_items
    rw [hsplit]
    obtain ⟨blocks, houtcome⟩ := outcome_ofPlan hdir hfresh hslash
    exact houtcome.holdsOnly

/-- A module with comments, and with their markers in a literal. -/
def commented : Text :=
  Text.ofString "module A; // note\n$display(\"// \\\"/*\"); /* x */\nendmodule // A\n"

/-- What is left of it without its comments, up to the end of the module. -/
def uncommented : Text :=
  Text.ofString "module A;\n$display(\"// \\\"/*\"); \nendmodule"

/-- The netlist in its directory, beside an empty output directory. -/
def commentedTree : FileTree :=
  ⟨[(["in.v"], .file commented), (["out"], .dir)], []⟩

/-- The markers in the literal stay, and begin no comment in the file either. -/
theorem split_commentFree_markers :
    let code := uncommented ++ [Byte.newline]
    Comment.strip commented = .ok code ∧
      .ok ⟨"A", uncommented, 1, 0⟩ ∈ (Scanner.ofText code).items ∧
      Comment.inLiteral code 0 = false ∧ Comment.strip uncommented = .ok uncommented ∧
      (∀ token ∈ Comment.tokens code, token.isOpenLiteral = false) ∧
      commentedTree.WellFormed ∧ Path.IsPlain ⟨"out"⟩ ∧
      (split (fun _ written => written.name) ⟨⟨"in.v"⟩, ⟨"out"⟩⟩ commentedTree).tree.HoldsOnly
        ⟨"out"⟩ fun content =>
          ∃ block, .ok block ∈ (Scanner.ofText code).items ∧ content = block.text := by
  intro code
  have hstrip : Comment.strip commented = .ok code := rfl
  have hblock : .ok ⟨"A", uncommented, 1, 0⟩ ∈ (Scanner.ofText code).items := by
    rw [Scanner.items_eq_matchedAhead]
    decide
  have houtside : Comment.inLiteral code 0 = false := by decide
  have hclosed : ∀ token ∈ Comment.tokens code, token.isOpenLiteral = false := by decide
  have htree : commentedTree.WellFormed := by decide
  have hdir : Path.IsPlain ⟨"out"⟩ := by decide
  obtain ⟨hcode, -, hfiles⟩ := split_commentFree (fun _ written => written.name)
    ⟨⟨"in.v"⟩, ⟨"out"⟩⟩ hstrip
  exact ⟨hstrip, hblock, houtside, hcode _ hblock houtside, hclosed, htree, hdir,
    hfiles commentedTree _ htree hdir rfl rfl⟩

/-- A literal that goes on over newlines, from one quote to the next, may hold a module with a
comment. -/
theorem split_commentFree_not_in_continued_literal :
    ¬ ∀ (raw code : Text) (block : Block), Comment.strip raw = .ok code →
      .ok block ∈ (Scanner.ofText code).items → Comment.strip block.text = .ok block.text := by
  intro hclaim
  have hstrip : Comment.strip (Text.ofString "$display(\"\\\nmodule A; // x\\\nendmodule\");\n") =
      .ok (Text.ofString "$display(\"\\\nmodule A; // x\\\nendmodule\");\n") := rfl
  have hblock : .ok ⟨"A", Text.ofString "module A; // x\\\nendmodule", 2, 12⟩ ∈
      (Scanner.ofText
        (Text.ofString "$display(\"\\\nmodule A; // x\\\nendmodule\");\n")).items := by
    rw [Scanner.items_eq_matchedAhead]
    decide
  exact absurd (hclaim _ _ _ hstrip hblock) (by decide)

end Run

end NetlistSplit
