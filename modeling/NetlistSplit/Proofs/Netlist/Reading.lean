import NetlistSplit.Proofs.Comment.Stable
import NetlistSplit.Proofs.Header.Keywords
import NetlistSplit.Proofs.Netlist.Grammar
import NetlistSplit.Proofs.Scanner.Matching

/-!
# A netlist gives its modules back

A netlist that is written down by its grammar holds no comments, and its blocks are
its outermost modules (`extract_render`).

## Strategy

Both readings of the text go along with the parts.  The removal of comments reads code
byte by byte and every literal as one token (`Parts.tokens`), the search for keywords
finds the openers and closers of the modules and nothing else (`Parts.keywords`).  In
front of parts, either reading is the one of the parts by themselves, if what follows
does not go on with the last of them (`rereads_tokens`, `search_render_append`).

The keywords of the parts of a body leave the depth as it was
(`stretches_keywords_append`).  So the stretch that a module begins ends with its own
closer.
-/

namespace NetlistSplit

/-! ## Literals -/

namespace Literal

theorem literalBody_quoted (chars : List Character) (rest : Text) :
    Comment.literalBody (chars.flatMap Character.text ++ (Byte.quote :: rest)) =
      (chars.flatMap Character.text ++ [Byte.quote], true) := by
  induction chars with
  | nil => exact Comment.literalBody_quote rest
  | cons first later ih =>
      cases first with
      | plain b hb =>
          obtain ⟨hquote, hbackslash, hnewline⟩ := hb
          rw [List.flatMap_cons, Character.text, List.append_assoc, List.singleton_append,
            Comment.literalBody_of_ne _ hquote hnewline hbackslash, ih]
          rfl
      | escaped b hb =>
          have hbody := Comment.literalBody_backslash b
            (later.flatMap Character.text ++ (Byte.quote :: rest))
          rw [ih] at hbody
          exact hbody

theorem newline_notMem_quoted (chars : List Character) : Byte.newline ∉ quoted chars := by
  intro hmem
  have hquote : Byte.newline ≠ Byte.quote := by decide
  have hbackslash : Byte.newline ≠ Byte.backslash := by decide
  have hchars : Byte.newline ∈ chars.flatMap Character.text := by
    simpa [quoted, hquote] using hmem
  obtain ⟨c, -, hc⟩ := List.mem_flatMap.mp hchars
  cases c with
  | plain b hb => exact hb.2.2 (List.mem_singleton.mp hc).symm
  | escaped b hb =>
      have hsame : Byte.newline = b := by simpa [Character.text, hbackslash] using hc
      exact hb hsame.symm

theorem getLast?_quoted (chars : List Character) :
    (quoted chars).getLast? = some Byte.quote := by
  rw [quoted, ← List.cons_append, List.getLast?_concat]

/-- A literal is a token, whatever follows it. -/
theorem leads_quoted (chars : List Character) (rest : Text) :
    (Comment.Token.literal (quoted chars) true).Leads rest := by
  apply Comment.Token.Leads.literal
  rw [List.append_assoc, List.singleton_append]
  exact literalBody_quoted chars rest

end Literal

namespace Keyword

/-- The search passes over a literal. -/
theorem search_quoted_append (chars : List Literal.Character) (rest : Text) :
    search (Literal.quoted chars ++ rest) 0 =
      (search rest 0).map (shift (Literal.quoted chars).length) := by
  have hbody := Literal.literalBody_quoted chars rest
  have hdrop : (Literal.quoted chars ++ rest).drop 0 =
      Byte.quote :: (chars.flatMap Literal.Character.text ++ (Byte.quote :: rest)) := by
    simp [Literal.quoted]
  have hcloses : Literal.ClosesOnLine
      (chars.flatMap Literal.Character.text ++ (Byte.quote :: rest)) := by
    rw [Literal.ClosesOnLine, hbody]
    exact ⟨rfl, fun hmem => Literal.newline_notMem_quoted chars (List.mem_cons_of_mem _ hmem)⟩
  have hstep := (step_of_closes hdrop hcloses).search_eq
  have hlength : 0 + 1 + (chars.flatMap Literal.Character.text ++ [Byte.quote]).length =
      (Literal.quoted chars).length := by
    rw [Nat.zero_add, Nat.add_comm]
    rfl
  rw [hbody, hlength, Option.toList_none, List.nil_append] at hstep
  rw [hstep, search_eq_map_shift, List.drop_left]
  intro hjoins
  rw [← getLast?_eq_byteBefore, Literal.getLast?_quoted] at hjoins
  cases hjoins

end Keyword

namespace Netlist

open Keyword

/-! ## Code -/

theorem Code.search_eq_nil (plain : Code) : search plain.text 0 = [] := by
  apply List.eq_nil_iff_forall_not_mem.mpr
  intro k hk
  obtain ⟨-, hoccurs, -⟩ := mem_search_iff.mp hk
  obtain ⟨word, hword, ⟨behind, hbehind⟩, hstop⟩ := hoccurs.spelled
  have htext : plain.text = plain.text.take k.start ++ (word ++ behind) := by
    rw [hbehind, List.take_append_drop]
  have hlength : (plain.text.take k.start).length = k.start :=
    List.length_take_of_le (Nat.le_of_lt hoccurs.start_lt)
  have hbefore : joins (plain.text.take k.start).getLast? = false := by
    rw [getLast?_eq_byteBefore _ (word ++ behind), ← htext, hlength]
    exact hoccurs.free_before
  have hafter : joins behind.head? = false := by
    have hrest : behind = plain.text.drop k.stop := by
      rw [hstop, ← List.drop_drop, ← hbehind, List.drop_left]
    rw [hrest, List.head?_drop]
    exact hoccurs.free_behind
  have hmem := mem_identifiers (isIdentifier_of_mem_word hword) hbefore hafter
  rw [← htext] at hmem
  exact plain.no_keyword word hmem (List.mem_map_of_mem hword)

theorem flatMap_text_map_code (text : Text) :
    (text.map Comment.Token.code).flatMap Comment.Token.text = text := by
  induction text with
  | nil => rfl
  | cons b later ih =>
      rw [List.map_cons, List.flatMap_cons, ih]
      rfl

/-- Code is read byte by byte. -/
theorem rereads_map_code {text rest : Text} (hquote : Byte.quote ∉ text)
    (hline : ¬ [Byte.slash, Byte.slash] <:+: text) (hblock : ¬ [Byte.slash, Byte.star] <:+: text)
    (hlast : text.getLast? = some Byte.slash →
      rest.head? ≠ some Byte.slash ∧ rest.head? ≠ some Byte.star) :
    Comment.Rereads (text.map .code) rest := by
  induction text with
  | nil => trivial
  | cons b later ih =>
      obtain ⟨hb, hlater⟩ := not_or.mp (mt List.mem_cons.mpr hquote)
      refine ⟨rfl, ?_, ?_⟩
      · rw [flatMap_text_map_code]
        refine .code (Ne.symm hb) fun hslash => ?_
        subst hslash
        cases later with
        | nil => exact hlast rfl
        | cons c behind =>
            constructor
            · intro hhead
              obtain rfl := Option.some.inj hhead
              exact hline ⟨[], behind, rfl⟩
            · intro hhead
              obtain rfl := Option.some.inj hhead
              exact hblock ⟨[], behind, rfl⟩
      · apply ih hlater (mt (List.IsInfix.trans · (List.suffix_cons b later).isInfix) hline)
          (mt (List.IsInfix.trans · (List.suffix_cons b later).isInfix) hblock)
        intro hslash
        apply hlast
        rw [List.getLast?_cons, hslash]
        rfl

theorem rereads_map_code_of_slash_notMem {text : Text} (hquote : Byte.quote ∉ text)
    (hslash : Byte.slash ∉ text) (rest : Text) : Comment.Rereads (text.map .code) rest := by
  apply rereads_map_code hquote
  · exact fun hline => hslash (hline.mem List.mem_cons_self)
  · exact fun hblock => hslash (hblock.mem List.mem_cons_self)
  · exact fun hlast => absurd (List.mem_of_getLast? hlast) hslash

/-! ## Closers -/

theorem isIdentifier_closer : ∀ b ∈ closer, Byte.isIdentifier b = true := by
  have hall : closer.all Byte.isIdentifier = true := by decide
  exact List.all_eq_true.mp hall

theorem search_closer_append {rest : Text} (hrest : joins rest.head? = false) :
    search (closer ++ rest) 0 =
      ⟨.closer, 0, closer.length⟩ :: (search rest 0).map (shift closer.length) := by
  have hself : search closer 0 = [⟨.closer, 0, closer.length⟩] := by decide
  rw [search_append_of_identifier isIdentifier_closer hrest, hself, List.singleton_append]

namespace Parts

/-! ## The readings of the parts -/

/-- The tokens of the parts. -/
def tokens : Parts → List Comment.Token
  | nil => []
  | code plain rest => plain.text.map .code ++ rest.tokens
  | literal chars rest => .literal (Literal.quoted chars) true :: rest.tokens
  | module header body rest =>
    header.text.map .code ++ (body.tokens ++ (closer.map .code ++ rest.tokens))

/-- The keywords of parts that start at an offset. -/
def keywords (offset : Nat) : Parts → List Keyword
  | nil => []
  | code plain rest => rest.keywords (offset + plain.text.length)
  | literal chars rest => rest.keywords (offset + (Literal.quoted chars).length)
  | module header body rest =>
    let bodyStart := offset + header.text.length
    let bodyStop := bodyStart + body.render.length
    let stop := bodyStop + closer.length
    ⟨.opener, offset, offset + header.opener.length⟩ ::
      (body.keywords bodyStart ++ ⟨.closer, bodyStop, stop⟩ :: rest.keywords stop)

/-! ## No comments -/

theorem flatMap_text_tokens (parts : Parts) :
    parts.tokens.flatMap Comment.Token.text = parts.render := by
  induction parts with
  | nil => rfl
  | code plain rest ih => rw [tokens, List.flatMap_append, flatMap_text_map_code, ih, render]
  | literal chars rest ih =>
      rw [tokens, List.flatMap_cons, ih, render]
      rfl
  | module header body rest ihBody ihRest =>
      simp only [tokens, render, List.flatMap_append, flatMap_text_map_code, ihBody, ihRest]

/-- Parts that do not begin with code do not go on with a slash. -/
theorem head?_of_not_beginsWithCode {parts : Parts} {rest : Text} (hnot : ¬ parts.BeginsWithCode)
    (hrest : rest.head? ≠ some Byte.slash ∧ rest.head? ≠ some Byte.star) :
    (parts.render ++ rest).head? ≠ some Byte.slash ∧
      (parts.render ++ rest).head? ≠ some Byte.star := by
  cases parts with
  | nil => exact hrest
  | code plain behind => exact absurd trivial hnot
  | literal chars behind => constructor <;> exact fun hhead => by cases hhead
  | module header body behind =>
      have hjoins := header.joins_head?_text (body.render ++ (closer ++ behind.render) ++ rest)
      rw [render, List.append_assoc]
      constructor <;>
        · intro hhead
          rw [hhead] at hjoins
          cases hjoins

theorem rereads_tokens {before : Option UInt8} {parts : Parts} {rest : Text}
    (hformed : parts.WellFormed before)
    (hrest : rest.head? ≠ some Byte.slash ∧ rest.head? ≠ some Byte.star) :
    Comment.Rereads parts.tokens rest := by
  induction hformed generalizing rest with
  | nil => trivial
  | @code before plain behind hnext hbehind ih =>
      refine Comment.rereads_append.mpr ⟨?_, ih hrest⟩
      rw [flatMap_text_tokens]
      exact rereads_map_code plain.quote_notMem plain.no_lineComment plain.no_blockComment
        fun _ => head?_of_not_beginsWithCode hnext hrest
  | @literal before chars behind hbehind ih => exact ⟨rfl, Literal.leads_quoted chars _, ih hrest⟩
  | @module before header body behind hbefore hname hbody hlast hnext hbehind ihBody ihBehind =>
      obtain ⟨hquote, hslash⟩ := header.mark_notMem
      refine Comment.rereads_append.mpr ⟨rereads_map_code_of_slash_notMem hquote hslash _, ?_⟩
      refine Comment.rereads_append.mpr ⟨ihBody ?_, ?_⟩
      · rw [List.flatMap_append, flatMap_text_map_code]
        constructor <;> exact fun hhead => by cases hhead
      · exact Comment.rereads_append.mpr
          ⟨rereads_map_code_of_slash_notMem (by decide) (by decide) _, ihBehind hrest⟩

/-- A netlist holds no comments. -/
theorem strip_render {parts : Parts} (hformed : parts.WellFormed none) :
    Comment.strip parts.render = .ok parts.render := by
  have hreads : Comment.Rereads parts.tokens [] := rereads_tokens hformed (by simp)
  have htokens : Comment.tokens parts.render = parts.tokens := by
    have hall := Comment.tokens_of_rereads hreads
    rw [flatMap_text_tokens, List.append_nil] at hall
    rw [hall]
    exact List.append_nil _
  rw [Comment.strip_eq_self_iff, htokens]
  exact Comment.isComment_of_rereads hreads

/-! ## No other keywords -/

theorem joins_or {last : Option UInt8} (hjoins : joins last = true) (before : Option UInt8) :
    joins (last.or before) = true := by
  cases last with
  | none => cases hjoins
  | some b => exact hjoins

theorem joins_getLast?_append {second : Text} (first : Text)
    (hjoins : joins second.getLast? = true) : joins (first ++ second).getLast? = true := by
  rw [List.getLast?_append]
  exact joins_or hjoins _

theorem joins_getLast?_moduleText (header : Header.Declaration) (body : Parts) :
    joins (moduleText header body).getLast? = true :=
  joins_getLast?_append _ (joins_getLast?_append _ rfl)

/-- Parts that do not begin with code do not go on with the identifier in front of them. -/
theorem joins_head?_of_wellFormed {before : Option UInt8} {parts : Parts} {rest : Text}
    (hformed : parts.WellFormed before) (hnot : ¬ parts.BeginsWithCode)
    (hbefore : joins before = true) (hrest : parts.render = [] → joins rest.head? = false) :
    joins (parts.render ++ rest).head? = false := by
  cases hformed with
  | nil => exact hrest rfl
  | code => exact absurd trivial hnot
  | literal => rfl
  | module hfree =>
      rw [hfree] at hbefore
      cases hbefore

theorem map_shift_keywords (parts : Parts) (offset distance : Nat) :
    (parts.keywords offset).map (shift distance) = parts.keywords (offset + distance) := by
  induction parts generalizing offset with
  | nil => rfl
  | code plain rest ih => rw [keywords, keywords, ih, Nat.add_right_comm]
  | literal chars rest ih => rw [keywords, keywords, ih, Nat.add_right_comm]
  | module header body rest ihBody ihRest =>
      simp only [keywords, List.map_cons, List.map_append, ihBody, ihRest, shift,
        Nat.add_right_comm _ _ distance]

/-- In front of a text that does not go on with their last identifier, parts hold the
keywords of their modules. -/
theorem search_render_append {before : Option UInt8} {parts : Parts} {rest : Text}
    (hformed : parts.WellFormed before)
    (hrest : joins parts.render.getLast? = true → joins rest.head? = false) :
    search (parts.render ++ rest) 0 =
      parts.keywords 0 ++ (search rest 0).map (shift parts.render.length) := by
  -- The induction is on how the parts get along.  What follows them is left open, since
  -- the parts of a body are followed by the closer of its module.
  induction hformed generalizing rest with
  | nil => simp [render, keywords]
  | @code before plain behind hnext hbehind ih =>
      have hword : joins plain.text.getLast? = true →
          joins (behind.render ++ rest).head? = false := by
        intro hjoins
        refine joins_head?_of_wellFormed hbehind hnext (joins_or hjoins before) ?_
        intro hnil
        apply hrest
        rw [render, hnil, List.append_nil]
        exact hjoins
      rw [render, List.append_assoc, search_append (.of_notMem_quote plain.quote_notMem hword),
        plain.search_eq_nil, ih fun hjoins => hrest (joins_getLast?_append plain.text hjoins),
        List.nil_append, List.map_append, map_shift_keywords, map_shift_map_shift, keywords,
        List.length_append, Nat.add_comm behind.render.length]
  | @literal before chars behind hbehind ih =>
      rw [render, List.append_assoc, search_quoted_append,
        ih fun hjoins => hrest (joins_getLast?_append (Literal.quoted chars) hjoins),
        List.map_append, map_shift_keywords, map_shift_map_shift, keywords, List.length_append,
        Nat.add_comm behind.render.length]
  | @module before header body behind hbefore hname hbody hlast hnext hbehind ihBody ihBehind =>
      rw [render_module] at hrest
      have hfree : joins (behind.render ++ rest).head? = false := by
        cases hcase : behind.render with
        | nil =>
            apply hrest
            rw [hcase, List.append_nil]
            exact joins_getLast?_moduleText header body
        | cons b later =>
            rw [hcase] at hnext
            exact hnext
      have hinside : search (body.render ++ (closer ++ (behind.render ++ rest))) 0 =
          body.keywords 0 ++ (search (closer ++ (behind.render ++ rest)) 0).map
            (shift body.render.length) := by
        apply ihBody
        intro hjoins
        rw [hlast] at hjoins
        cases hjoins
      rw [render]
      simp only [List.append_assoc]
      rw [Header.Declaration.search_append_of_name hname, hinside, search_closer_append hfree,
        ihBehind fun hjoins => hrest (joins_getLast?_append (moduleText header body) hjoins)]
      simp only [keywords, shift, List.map_append, List.map_cons, map_shift_keywords,
        map_shift_map_shift, List.length_append, List.cons_append, List.append_assoc,
        Nat.zero_add, Nat.add_zero, Nat.add_comm, Nat.add_left_comm]

/-- The search finds the keywords of the modules. -/
theorem search_render {parts : Parts} (hformed : parts.WellFormed none) :
    search parts.render 0 = parts.keywords 0 := by
  have hall := search_render_append hformed fun _ => (rfl : joins ([] : Text).head? = false)
  rw [List.append_nil] at hall
  rw [hall]
  exact List.append_nil _

/-! ## Modules inside of modules -/

/-- What is nested in a module closes nothing outside of itself. -/
theorem stretches_keywords_append (parts : Parts) (offset depth start : Nat)
    (later : List Keyword) :
    stretches (depth + 1) start (parts.keywords offset ++ later) =
      stretches (depth + 1) start later := by
  induction parts generalizing offset depth later with
  | nil => rfl
  | code plain rest ih => exact ih _ _ _
  | literal chars rest ih => exact ih _ _ _
  | module header body rest ihBody ihRest =>
      simp only [keywords, List.cons_append, List.append_assoc]
      rw [stretches, if_neg (Nat.succ_ne_zero depth), ihBody, stretches, if_neg (by omega)]
      exact ihRest _ _ _

/-! ## The modules -/

/-- A module is one closed stretch. -/
theorem stretches_keywords_module (header : Header.Declaration) (body rest : Parts)
    (offset start : Nat) :
    stretches 0 start ((module header body rest).keywords offset) =
      .closed ⟨offset, offset + (moduleText header body).length⟩ ::
        stretches 0 offset (rest.keywords (offset + (moduleText header body).length)) := by
  have hstop : offset + header.text.length + body.render.length + closer.length =
      offset + (moduleText header body).length := by
    simp only [moduleText, List.length_append]
    omega
  rw [keywords, hstop, stretches, if_pos rfl, stretches_keywords_append, stretches, if_pos rfl]

/-- The blocks are found where the modules stand. -/
theorem itemsOf_keywords (parts : Parts) (earlier : Text) (start : Nat) :
    Scanner.itemsOf (earlier ++ parts.render)
        (stretches 0 start (parts.keywords earlier.length)) =
      (parts.blocks earlier).map .ok := by
  induction parts generalizing earlier start with
  | nil => rfl
  | code plain rest ih =>
      have hrest := ih (earlier ++ plain.text) start
      rw [List.append_assoc, List.length_append] at hrest
      exact hrest
  | literal chars rest ih =>
      have hrest := ih (earlier ++ Literal.quoted chars) start
      rw [List.append_assoc, List.length_append] at hrest
      exact hrest
  | module header body rest ihBody ihRest =>
      have hname : Header.name? (module header body rest).render =
          some (Text.asciiString header.name) := Header.name?_append header _
      have hslice : Text.slice (earlier ++ (module header body rest).render) earlier.length
          (earlier.length + (moduleText header body).length) = moduleText header body := by
        rw [Text.slice, List.drop_left, Nat.add_sub_cancel_left, render_module, List.take_left]
      have hline : Text.lineAt (earlier ++ (module header body rest).render) earlier.length =
          earlier.count Byte.newline + 1 := by
        rw [Text.lineAt, List.take_left]
      have hrest := ihRest (earlier ++ moduleText header body) earlier.length
      rw [List.append_assoc, ← render_module, List.length_append] at hrest
      rw [stretches_keywords_module, Scanner.itemsOf, List.drop_left, hname, hslice, hline, hrest]
      rfl

/-- Nothing is removed from a netlist, and its blocks are its outermost modules. -/
theorem extract_render {parts : Parts} (hformed : parts.WellFormed none) :
    Comment.strip parts.render = .ok parts.render ∧
      Block.extract parts.render = .ok (parts.blocks []) := by
  refine ⟨strip_render hformed, ?_⟩
  apply Scanner.mapM_id_eq_ok_iff.mpr
  rw [Scanner.items_eq_matchedAhead]
  calc Scanner.itemsOf parts.render (stretches 0 0 (search parts.render 0))
      = Scanner.itemsOf ([] ++ parts.render) (stretches 0 0 (parts.keywords 0)) := by
        rw [search_render hformed, List.nil_append]
    _ = (parts.blocks []).map .ok := itemsOf_keywords parts [] 0

/-- A blank between two words. -/
def blank : Text.Spaces :=
  ⟨[' '], by simp [Text.whiteSpace]⟩

/-- A module with a module named `static` in it, with a literal that holds a keyword and
a marker, and with identifiers that hold keywords.  Behind a literal stands another
module, whose name begins with a keyword. -/
def nested : Parts :=
  .code ⟨Text.ofString "my_module/\n", by decide, by decide, by decide, by decide⟩ <|
  .module
    ⟨Text.ofString "macromodule", blank, some (Text.ofString "automatic", blank),
      Text.ofString "A$1", .empty, some blank, Byte.leftParen, by decide, by decide,
      by simp; decide, by decide, List.all_eq_true.mp (by decide), .inl rfl⟩
    (.code ⟨Text.ofString "x); n$module ", by decide, by decide, by decide, by decide⟩ <|
      .literal
        (.escaped Byte.quote (by decide) ::
          (Text.ofString "endmodule //").pmap .plain (by decide +kernel)) <|
      .module
        ⟨Text.ofString "module", blank, none, Text.ofString "static", .empty, none,
          Byte.semicolon, by decide, by decide, by simp, by decide,
          List.all_eq_true.mp (by decide), .inr rfl⟩
        .nil <|
      .code ⟨[Byte.newline], by decide, by decide, by decide, by decide⟩ .nil) <|
  .literal [] <|
  .module
    ⟨Text.ofString "module", blank, none, Text.ofString "endmodule_", blank, none,
      Byte.semicolon, by decide, by decide, by simp, by decide,
      List.all_eq_true.mp (by decide), .inr rfl⟩
    .nil .nil

/-- Of the three modules the inner one is a part of the first block. -/
theorem extract_render_nested :
    nested.WellFormed none ∧
      nested.render = Text.ofString ("my_module/\nmacromodule automatic A$1# (x); n$module " ++
        "\"\\\"endmodule //\"module static;endmodule\nendmodule\"\"module endmodule_ ;endmodule") ∧
      Comment.strip nested.render = .ok nested.render ∧
      Block.extract nested.render = .ok
        [⟨"A$1", Text.ofString ("macromodule automatic A$1# (x); n$module " ++
            "\"\\\"endmodule //\"module static;endmodule\nendmodule"), 2, 11⟩,
          ⟨"endmodule_", Text.ofString "module endmodule_ ;endmodule", 3, 103⟩] := by
  have hformed : nested.WellFormed none :=
    .code id (.module rfl (by decide)
      (.code id (.literal (.module rfl (by decide) .nil rfl rfl (.code id .nil)))) (by decide)
      (by decide) (.literal (.module rfl (by decide) .nil rfl rfl .nil)))
  obtain ⟨hstrip, hextract⟩ := extract_render hformed
  refine ⟨hformed, by decide, hstrip, ?_⟩
  rw [hextract]
  decide

end Parts

end Netlist

end NetlistSplit
