import Mathlib.Data.List.Nodup
import NetlistSplit.CommandLine.Message

/-!
# The grammar of the arguments

The arguments that lead to a run are those of a small grammar: in any order `-v` or
`--verbose` once at most and `--json` once at most, and then perhaps two dashes
(`FollowsGrammar`).  The options of the run are those that occur.  All other arguments get an
answer, and it depends on nothing behind the first argument that the grammar does not allow
after the ones in front of it (`answer_decided`).

## Strategy

One argument is taken up just if it is a way to write an option that did not occur yet
(`acceptArgument_eq_ok_iff`).  So the flags among all arguments are the options that they
write, one after the other (`flags_eq_ok_iff`), and where the reading stops it stops at an
argument behind arguments that are taken up (`exists_stop_of_flags`).
-/

namespace NetlistSplit

namespace Flag

variable {name : List Char} {letter : Char} {flag : Flag}

theorem ofName?_eq_some_iff : ofName? name = some flag ↔ name = flag.name.toList := by
  constructor
  · intro hfind
    have hname := List.find?_some hfind
    exact (of_decide_eq_true hname).symm
  · rintro rfl
    cases flag <;> rfl

theorem ofLetter?_eq_some_iff : ofLetter? letter = some flag ↔ flag.letter? = some letter := by
  constructor
  · intro hfind
    simpa using List.find?_some hfind
  · intro hletter
    cases flag <;>
      · cases hletter <;> rfl

end Flag

namespace CommandLine

/-! ## The grammar -/

/-- The ways to ask for the files to be named. -/
def verboseSpellings : List String := ["-v", "--verbose"]

/-- The ways to ask for a report. -/
def jsonSpellings : List String := ["--json"]

/-- Whether arguments lead to a run by the grammar. -/
def FollowsGrammar (arguments : List String) : Prop :=
  (∃ words, (arguments = words ∨ arguments = words ++ ["--"]) ∧
    ∀ word ∈ words, word ∈ verboseSpellings ∨ word ∈ jsonSpellings) ∧
  arguments.countP (· ∈ verboseSpellings) ≤ 1 ∧ arguments.countP (· ∈ jsonSpellings) ≤ 1

/-- What the program makes of its name and its arguments: the options of a run, or why there
is none and the text that the user is told. -/
def answer (argv : List String) : Except (Stop × String) Options :=
  (parse argv.tail).mapError fun stop => (stop, stop.message (programName argv.head?))

/-- The option that an argument writes. -/
def optionOf? (argument : String) : Option Flag :=
  if argument ∈ verboseSpellings then some .verbose
  else if argument ∈ jsonSpellings then some .json
  else none

/-! ## One argument -/

variable {seen final : List Flag} {flag : Flag} {argument : String} {arguments : List String}

theorem accept_eq_ok_iff {long : Bool} :
    accept long seen flag = .ok final ↔
      flag.isOption = true ∧ flag ∉ seen ∧ final = seen ++ [flag] := by
  have hoption : ∀ flag : Flag, (if flag ∈ seen then .error (.wrong (.repeatedFlag flag))
      else .ok (seen ++ [flag]) : Except Stop (List Flag)) = .ok final ↔
        flag ∉ seen ∧ final = seen ++ [flag] := by
    intro flag
    split
    · next hseen => exact iff_of_false (fun heq => nomatch heq) fun hboth => hboth.1 hseen
    · next hnew =>
        constructor
        · intro heq
          exact ⟨hnew, (Except.ok.inj heq).symm⟩
        · rintro ⟨-, rfl⟩
          rfl
  cases flag with
  | verbose => exact (hoption .verbose).trans (by simp [Flag.isOption])
  | json => exact (hoption .json).trans (by simp [Flag.isOption])
  | help => exact iff_of_false (fun heq => nomatch heq) fun hall => nomatch hall.1
  | version => exact iff_of_false (fun heq => nomatch heq) fun hall => nomatch hall.1

/-- Written in full, an option is its name and nothing else. -/
theorem acceptLong_eq_ok_iff {text : List Char} :
    acceptLong seen text = .ok final ↔
      ∃ flag : Flag, text = flag.name.toList ∧ flag.isOption = true ∧ flag ∉ seen ∧
        final = seen ++ [flag] := by
  constructor
  · intro haccept
    unfold acceptLong at haccept
    simp only at haccept
    split at haccept
    · next flag hname hvalue =>
        have hnone : text.dropWhile (· ≠ '=') = [] := by
          cases hrest : text.dropWhile (· ≠ '=') with
          | nil => rfl
          | cons c later =>
              rw [hrest] at hvalue
              cases hvalue
        have htext : text.takeWhile (· ≠ '=') ++ text.dropWhile (· ≠ '=') = text :=
          List.takeWhile_append_dropWhile
        rw [hnone, List.append_nil] at htext
        exact ⟨flag, htext.symm.trans (Flag.ofName?_eq_some_iff.mp hname),
          accept_eq_ok_iff.mp haccept⟩
    · cases haccept
    · cases haccept
  · rintro ⟨flag, rfl, hflag⟩
    have haccept : acceptLong seen flag.name.toList = accept true seen flag := by
      cases flag <;> rfl
    rw [haccept]
    exact accept_eq_ok_iff.mpr hflag

/-- Only one letter writes an option. -/
theorem eq_verbose_of_acceptLetters {letter : Char} {later : List Char}
    (haccept : acceptLetters seen (letter :: later) = .ok final) :
    letter = 'v' ∧ Flag.verbose ∉ seen ∧
      acceptLetters (seen ++ [.verbose]) later = .ok final := by
  rw [acceptLetters] at haccept
  split at haccept
  · next flag hletter =>
      rw [Flag.ofLetter?_eq_some_iff] at hletter
      cases htaken : accept false seen flag with
      | error stop =>
          rw [htaken] at haccept
          cases haccept
      | ok now =>
          rw [htaken] at haccept
          obtain ⟨hoption, hnew, rfl⟩ := accept_eq_ok_iff.mp htaken
          cases flag with
          | verbose => exact ⟨(Option.some.inj hletter).symm, hnew, haccept⟩
          | json => cases hletter
          | help => cases hoption
          | version => cases hoption
  · cases haccept

/-- Joined letters write an option only if there is no second. -/
theorem acceptLetters_eq_ok_iff {letter : Char} {later : List Char} :
    acceptLetters seen (letter :: later) = .ok final ↔
      (letter = 'v' ∧ later = []) ∧ Flag.verbose ∉ seen ∧ final = seen ++ [.verbose] := by
  constructor
  · intro haccept
    obtain ⟨hletter, hnew, hlater⟩ := eq_verbose_of_acceptLetters haccept
    cases later with
    | nil => exact ⟨⟨hletter, rfl⟩, hnew, (Except.ok.inj hlater).symm⟩
    | cons second later =>
        obtain ⟨-, hagain, -⟩ := eq_verbose_of_acceptLetters hlater
        exact absurd (List.mem_append_right seen (List.mem_singleton_self _)) hagain
  · rintro ⟨⟨rfl, rfl⟩, hnew, rfl⟩
    have hletter : Flag.ofLetter? 'v' = some .verbose := rfl
    have htaken : accept false seen .verbose = .ok (seen ++ [.verbose]) :=
      accept_eq_ok_iff.mpr ⟨rfl, hnew, rfl⟩
    simp only [acceptLetters, hletter, htaken]
    rfl

theorem optionOf?_eq_some_iff :
    optionOf? argument = some flag ↔
      (flag.isOption = true ∧ argument = flag.long) ∨ (flag = .verbose ∧ argument = "-v") := by
  have hverbose : argument ∈ verboseSpellings ↔ argument = "-v" ∨ argument = "--verbose" := by
    simp [verboseSpellings]
  have hjson : argument ∈ jsonSpellings ↔ argument = "--json" := by
    simp [jsonSpellings]
  have hlong : Flag.verbose.long = "--verbose" ∧ Flag.json.long = "--json" := by decide
  simp only [optionOf?, hverbose, hjson]
  constructor
  · intro hoption
    split at hoption
    · next hspelled =>
        obtain rfl := Option.some.inj hoption
        rcases hspelled with rfl | rfl
        · exact .inr ⟨rfl, rfl⟩
        · exact .inl ⟨rfl, hlong.1.symm⟩
    · split at hoption
      · next hspelled =>
          obtain rfl := Option.some.inj hoption
          exact .inl ⟨rfl, hspelled.trans hlong.2.symm⟩
      · cases hoption
  · rintro (⟨hoption, rfl⟩ | ⟨rfl, rfl⟩)
    · cases flag with
      | verbose => rfl
      | json => rfl
      | help => cases hoption
      | version => cases hoption
    · rfl

theorem acceptArgument_eq_ok_iff (hdashes : argument ≠ "--") :
    acceptArgument seen argument = .ok final ↔
      ∃ flag, optionOf? argument = some flag ∧ flag ∉ seen ∧ final = seen ++ [flag] := by
  have hlong : ∀ flag : Flag, flag.long.toList = '-' :: '-' :: flag.name.toList := by
    intro flag
    simp [Flag.long]
  simp only [optionOf?_eq_some_iff]
  unfold acceptArgument
  split
  · next text hargument =>
      rw [acceptLong_eq_ok_iff]
      constructor
      · rintro ⟨flag, rfl, hoption, hnew⟩
        refine ⟨flag, .inl ⟨hoption, ?_⟩, hnew⟩
        rw [← String.toList_inj, hargument, hlong]
      · rintro ⟨flag, ⟨hoption, rfl⟩ | ⟨rfl, rfl⟩, hnew⟩
        · rw [hlong] at hargument
          obtain ⟨-, hargument⟩ := List.cons.inj hargument
          exact ⟨flag, (List.cons.inj hargument).2.symm, hoption, hnew⟩
        · exact absurd hargument (by simp)
  · next letter later hne hargument =>
      rw [acceptLetters_eq_ok_iff]
      constructor
      · rintro ⟨⟨rfl, rfl⟩, hnew⟩
        refine ⟨.verbose, .inr ⟨rfl, ?_⟩, hnew⟩
        rw [← String.toList_inj, hargument]
        rfl
      · rintro ⟨flag, ⟨hoption, rfl⟩ | ⟨rfl, rfl⟩, hnew⟩
        · -- A flag that is written in full begins with two dashes.
          obtain ⟨rfl, -⟩ := List.cons.inj (List.cons.inj ((hlong flag).symm.trans hargument)).2
          exact (hne rfl).elim
        · obtain ⟨-, hletters⟩ := List.cons.inj (show ['-', 'v'] = _ from hargument)
          obtain ⟨rfl, rfl⟩ := List.cons.inj hletters
          exact ⟨⟨rfl, rfl⟩, hnew⟩
  · next hfull hletters =>
      refine iff_of_false (fun heq => nomatch heq) ?_
      rintro ⟨flag, ⟨hoption, rfl⟩ | ⟨rfl, rfl⟩, hnew⟩
      · exact hfull _ (hlong flag)
      · exact hletters 'v' [] rfl

/-! ## All arguments -/

theorem flags_cons (hdashes : argument ≠ "--") :
    flags seen (argument :: arguments) =
      (acceptArgument seen argument).bind fun seen => flags seen arguments := by
  rw [flags.eq_def]
  simp only [if_neg hdashes]

theorem flags_dashes_eq_ok_iff :
    flags seen ("--" :: arguments) = .ok final ↔ arguments = [] ∧ final = seen := by
  rw [flags.eq_def]
  simp only [if_true]
  cases arguments with
  | nil =>
      constructor
      · intro hflags
        exact ⟨rfl, (Except.ok.inj hflags).symm⟩
      · rintro ⟨-, rfl⟩
        rfl
  | cons surplus later => exact iff_of_false (fun heq => nomatch heq) fun hboth => nomatch hboth.1

theorem flags_cons_eq_ok_iff (hdashes : argument ≠ "--") :
    flags seen (argument :: arguments) = .ok final ↔
      ∃ flag, optionOf? argument = some flag ∧ flag ∉ seen ∧
        flags (seen ++ [flag]) arguments = .ok final := by
  rw [flags_cons hdashes]
  constructor
  · intro hflags
    cases htaken : acceptArgument seen argument with
    | error stop =>
        rw [htaken] at hflags
        cases hflags
    | ok now =>
        obtain ⟨flag, hoption, hnew, rfl⟩ := (acceptArgument_eq_ok_iff hdashes).mp htaken
        rw [htaken] at hflags
        exact ⟨flag, hoption, hnew, hflags⟩
  · rintro ⟨flag, hoption, hnew, hflags⟩
    rw [(acceptArgument_eq_ok_iff hdashes).mpr ⟨flag, hoption, hnew, rfl⟩]
    exact hflags

/-- Whether arguments write options, one each, and perhaps end with two dashes. -/
inductive Write : List String → List Flag → Prop where
  | nil : Write [] []
  | dashes : Write ["--"] []
  | cons {argument : String} {flag : Flag} {arguments : List String} {given : List Flag} :
      optionOf? argument = some flag → Write arguments given →
        Write (argument :: arguments) (flag :: given)

theorem optionOf?_dashes : optionOf? "--" = none := by
  simp [optionOf?, verboseSpellings, jsonSpellings]

/-- The flags are the options that the arguments write, and none is written twice. -/
theorem flags_eq_ok_iff :
    flags seen arguments = .ok final ↔
      ∃ given, Write arguments given ∧ given.Nodup ∧ (∀ flag ∈ given, flag ∉ seen) ∧
        final = seen ++ given := by
  induction arguments generalizing seen with
  | nil =>
      constructor
      · intro hflags
        obtain rfl := Except.ok.inj hflags
        exact ⟨[], .nil, .nil, by simp⟩
      · rintro ⟨given, hwrite, -, -, rfl⟩
        cases hwrite
        rw [List.append_nil]
        rfl
  | cons argument arguments ih =>
      by_cases hdashes : argument = "--"
      · subst hdashes
        rw [flags_dashes_eq_ok_iff]
        constructor
        · rintro ⟨rfl, rfl⟩
          exact ⟨[], .dashes, .nil, by simp⟩
        · rintro ⟨given, hwrite, -, -, rfl⟩
          cases hwrite with
          | dashes => exact ⟨rfl, List.append_nil seen⟩
          | cons hoption _ => cases optionOf?_dashes.symm.trans hoption
      · rw [flags_cons_eq_ok_iff hdashes]
        simp only [ih]
        constructor
        · rintro ⟨flag, hoption, hnew, given, hwrite, hnodup, hgiven, rfl⟩
          simp only [List.mem_append, List.mem_singleton, not_or] at hgiven
          refine ⟨flag :: given, .cons hoption hwrite, List.nodup_cons.mpr ⟨?_, hnodup⟩, ?_, ?_⟩
          · intro hagain
            exact (hgiven flag hagain).2 rfl
          · exact List.forall_mem_cons.mpr ⟨hnew, fun other hother => (hgiven other hother).1⟩
          · rw [List.append_assoc, List.singleton_append]
        · rintro ⟨_, hwrite, hnodup, hgiven, rfl⟩
          cases hwrite with
          | dashes => exact absurd rfl hdashes
          | @cons _ flag _ given hoption hwrite =>
              obtain ⟨honce, hnodup⟩ := List.nodup_cons.mp hnodup
              obtain ⟨hnew, hgiven⟩ := List.forall_mem_cons.mp hgiven
              refine ⟨flag, hoption, hnew, given, hwrite, hnodup, ?_, ?_⟩
              · intro other hother hseen
                obtain hseen | hflag := List.mem_append.mp hseen
                · exact hgiven other hother hseen
                · obtain rfl := List.mem_singleton.mp hflag
                  exact honce hother
              · rw [List.append_assoc, List.singleton_append]

/-! ## The grammar is that of the options written -/

namespace Write

variable {given : List Flag}

/-- The options come from the arguments one to one. -/
theorem count_eq (hwrite : Write arguments given) (flag : Flag) :
    given.count flag = arguments.countP fun word => optionOf? word = some flag := by
  induction hwrite with
  | nil => rfl
  | dashes => simp [optionOf?_dashes]
  | @cons argument other arguments given hoption _ ih =>
      rw [List.count_cons, List.countP_cons, ih, hoption]
      simp

theorem exists_words (hwrite : Write arguments given) :
    ∃ words, (arguments = words ∨ arguments = words ++ ["--"]) ∧
      ∀ word ∈ words, ∃ flag, optionOf? word = some flag := by
  induction hwrite with
  | nil => exact ⟨[], .inl rfl, by simp⟩
  | dashes => exact ⟨[], .inr rfl, by simp⟩
  | @cons argument flag arguments given hoption _ ih =>
      obtain ⟨words, hwords, hspelled⟩ := ih
      exact ⟨argument :: words, hwords.imp (congrArg _) (congrArg _),
        List.forall_mem_cons.mpr ⟨⟨flag, hoption⟩, hspelled⟩⟩

theorem exists_of_words {words : List String}
    (hwords : arguments = words ∨ arguments = words ++ ["--"])
    (hspelled : ∀ word ∈ words, ∃ flag, optionOf? word = some flag) :
    ∃ given, Write arguments given := by
  induction words generalizing arguments with
  | nil =>
      obtain rfl | rfl := hwords
      · exact ⟨[], .nil⟩
      · exact ⟨[], .dashes⟩
  | cons word words ih =>
      obtain ⟨⟨flag, hoption⟩, hspelled⟩ := List.forall_mem_cons.mp hspelled
      obtain rfl | rfl := hwords
      · obtain ⟨given, hwrite⟩ := ih (.inl rfl) hspelled
        exact ⟨flag :: given, .cons hoption hwrite⟩
      · obtain ⟨given, hwrite⟩ := ih (.inr rfl) hspelled
        exact ⟨flag :: given, .cons hoption hwrite⟩

end Write

theorem optionOf?_eq_verbose_iff :
    optionOf? argument = some .verbose ↔ argument ∈ verboseSpellings := by
  unfold optionOf?
  split
  · next hverbose => exact iff_of_true rfl hverbose
  · next hother => split <;> exact iff_of_false (fun heq => nomatch heq) hother

theorem optionOf?_eq_json_iff : optionOf? argument = some .json ↔ argument ∈ jsonSpellings := by
  unfold optionOf?
  split
  · next hverbose =>
      refine iff_of_false (fun heq => nomatch heq) fun hjson => ?_
      obtain rfl := List.mem_singleton.mp hjson
      revert hverbose
      decide
  · split
    · next hjson => exact iff_of_true rfl hjson
    · next hother => exact iff_of_false (fun heq => nomatch heq) hother

theorem isOption_of_optionOf? (hoption : optionOf? argument = some flag) :
    flag.isOption = true := by
  obtain ⟨hflag, -⟩ | ⟨rfl, -⟩ := optionOf?_eq_some_iff.mp hoption
  · exact hflag
  · rfl

theorem exists_optionOf?_iff :
    (∃ flag, optionOf? argument = some flag) ↔
      argument ∈ verboseSpellings ∨ argument ∈ jsonSpellings := by
  rw [← optionOf?_eq_verbose_iff, ← optionOf?_eq_json_iff]
  constructor
  · rintro ⟨flag, hoption⟩
    cases flag with
    | verbose => exact .inl hoption
    | json => exact .inr hoption
    | help => cases isOption_of_optionOf? hoption
    | version => cases isOption_of_optionOf? hoption
  · rintro (hoption | hoption)
    · exact ⟨_, hoption⟩
    · exact ⟨_, hoption⟩

/-- No option is written twice just if none of them is spelled twice. -/
theorem Write.nodup_iff {given : List Flag} (hwrite : Write arguments given) :
    given.Nodup ↔ arguments.countP (· ∈ verboseSpellings) ≤ 1 ∧
      arguments.countP (· ∈ jsonSpellings) ≤ 1 := by
  have hverbose := hwrite.count_eq .verbose
  have hjson := hwrite.count_eq .json
  simp only [optionOf?_eq_verbose_iff] at hverbose
  simp only [optionOf?_eq_json_iff] at hjson
  rw [List.nodup_iff_count, ← hverbose, ← hjson]
  constructor
  · intro hcount
    exact ⟨hcount .verbose, hcount .json⟩
  · rintro ⟨hverbose, hjson⟩ flag
    have hanswer : flag.isOption = false → given.count flag ≤ 1 := by
      intro hflag
      rw [hwrite.count_eq, List.countP_eq_zero.mpr]
      · exact Nat.zero_le 1
      · intro word _ hoption
        rw [isOption_of_optionOf? (of_decide_eq_true hoption)] at hflag
        cases hflag
    cases flag with
    | verbose => exact hverbose
    | json => exact hjson
    | help => exact hanswer rfl
    | version => exact hanswer rfl

theorem followsGrammar_iff :
    FollowsGrammar arguments ↔ ∃ final, flags [] arguments = .ok final := by
  constructor
  · rintro ⟨⟨words, hwords, hspelled⟩, hcounts⟩
    simp only [← exists_optionOf?_iff] at hspelled
    obtain ⟨given, hwrite⟩ := Write.exists_of_words hwords hspelled
    exact ⟨given, flags_eq_ok_iff.mpr ⟨given, hwrite, hwrite.nodup_iff.mpr hcounts, by simp⟩⟩
  · rintro ⟨final, hflags⟩
    obtain ⟨given, hwrite, hnodup, -, -⟩ := flags_eq_ok_iff.mp hflags
    obtain ⟨words, hwords, hspelled⟩ := hwrite.exists_words
    simp only [exists_optionOf?_iff] at hspelled
    exact ⟨⟨words, hwords, hspelled⟩, hwrite.nodup_iff.mp hnodup⟩

theorem mem_flags_iff (hflags : flags [] arguments = .ok final) :
    flag ∈ final ↔ ∃ word ∈ arguments, optionOf? word = some flag := by
  obtain ⟨given, hwrite, -, -, rfl⟩ := flags_eq_ok_iff.mp hflags
  rw [← List.count_pos_iff, hwrite.count_eq, List.countP_pos_iff]
  simp only [decide_eq_true_iff]

/-! ## Where the reading stops -/

/-- Behind the argument at which the reading stops nothing counts. -/
theorem exists_stop_of_flags {stop : Stop} (hflags : flags seen arguments = .error stop) :
    ∃ front word later reached, arguments = front ++ word :: later ∧
      flags seen front = .ok reached ∧
      ∀ other, flags seen (front ++ word :: other) = .error stop := by
  induction arguments generalizing seen with
  | nil => cases hflags
  | cons argument arguments ih =>
      by_cases hdashes : argument = "--"
      · subst hdashes
        cases arguments with
        | nil =>
            rw [flags_dashes_eq_ok_iff.mpr ⟨rfl, rfl⟩] at hflags
            cases hflags
        | cons surplus later =>
            have hstop : ∀ other, flags seen ("--" :: surplus :: other) = .error stop :=
              fun other => hflags
            exact ⟨["--"], surplus, later, seen, rfl, flags_dashes_eq_ok_iff.mpr ⟨rfl, rfl⟩, hstop⟩
      · rw [flags_cons hdashes] at hflags
        cases htaken : acceptArgument seen argument with
        | error found =>
            rw [htaken] at hflags
            refine ⟨[], argument, arguments, seen, rfl, rfl, fun other => ?_⟩
            rw [List.nil_append, flags_cons hdashes, htaken]
            exact hflags
        | ok now =>
            rw [htaken] at hflags
            obtain ⟨front, word, later, reached, rfl, hfront, hstop⟩ := ih hflags
            have hcons : ∀ rest, flags seen (argument :: rest) = flags now rest := by
              intro rest
              rw [flags_cons hdashes, htaken]
              rfl
            refine ⟨argument :: front, word, later, reached, rfl, ?_, fun other => ?_⟩
            · rw [hcons, hfront]
            · rw [List.cons_append, hcons, hstop]

theorem FollowsGrammar.front {front : List String} (hgrammar : FollowsGrammar arguments)
    (hfront : front <+: arguments) : FollowsGrammar front := by
  rw [followsGrammar_iff] at hgrammar ⊢
  obtain ⟨final, hflags⟩ := hgrammar
  obtain ⟨rest, rfl⟩ := hfront
  cases hreached : flags [] front with
  | ok reached => exact ⟨reached, rfl⟩
  | error stop =>
      obtain ⟨before, word, later, -, rfl, -, hstop⟩ := exists_stop_of_flags hreached
      rw [List.append_assoc, List.cons_append, hstop] at hflags
      cases hflags

/-- The arguments lead to a run just if they follow the grammar, and its options are those that
occur; otherwise the first argument that the grammar does not allow after the ones before it
decides the answer. -/
theorem answer_decided (argv : List String) :
    match answer argv with
    | .ok options =>
      FollowsGrammar argv.tail ∧
      (options.verbose = true ↔ ∃ word ∈ argv.tail, word ∈ verboseSpellings) ∧
      (options.json = true ↔ ∃ word ∈ argv.tail, word ∈ jsonSpellings)
    | .error _ =>
      ¬ FollowsGrammar argv.tail ∧
      ∃ program front word later, argv = program :: (front ++ word :: later) ∧
        (∀ before, before <+: front → FollowsGrammar before) ∧
        ¬ FollowsGrammar (front ++ [word]) ∧
        ∀ other, answer (program :: (front ++ word :: other)) = answer argv := by
  cases hflags : flags [] argv.tail with
  | ok final =>
      have hanswer : answer argv = .ok
          { verbose := decide (.verbose ∈ final), json := decide (.json ∈ final) } := by
        simp only [answer, parse, hflags]
        rfl
      rw [hanswer]
      simp only [decide_eq_true_iff, mem_flags_iff hflags, optionOf?_eq_verbose_iff,
        optionOf?_eq_json_iff, and_true]
      exact followsGrammar_iff.mpr ⟨final, hflags⟩
  | error stop =>
      have hanswer : ∀ program arguments, flags [] arguments = .error stop →
          answer (program :: arguments) =
            .error (stop, stop.message (programName (some program))) := by
        intro program arguments hstop
        simp only [answer, parse, List.tail_cons, hstop]
        rfl
      have hrejected : ∀ arguments, flags [] arguments = .error stop →
          ¬ FollowsGrammar arguments := by
        intro arguments hstop hgrammar
        obtain ⟨final, hflags⟩ := followsGrammar_iff.mp hgrammar
        cases hstop.symm.trans hflags
      cases argv with
      | nil => cases hflags
      | cons program arguments =>
          rw [hanswer program arguments hflags]
          obtain ⟨front, word, later, reached, rfl, hfront, hstop⟩ := exists_stop_of_flags hflags
          have hallowed : FollowsGrammar front := followsGrammar_iff.mpr ⟨reached, hfront⟩
          exact ⟨hrejected _ hflags, program, front, word, later, rfl,
            fun before hbefore => hallowed.front hbefore, hrejected _ (hstop []),
            fun other => hanswer program _ (hstop other)⟩

end CommandLine

end NetlistSplit
