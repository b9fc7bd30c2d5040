import NetlistSplit.CommandLine.Similarity

/-!
# Flags of the command line

Every option of the program is a flag: it has a long name, perhaps a letter, and
never a value.
-/

namespace NetlistSplit

/-- The flags. -/
inductive Flag where
  | verbose
  | json
  | help
  | version
  deriving DecidableEq, Repr

namespace Flag

/-- The flags in the order of the help. -/
def all : List Flag := [verbose, json, help, version]

/-- The name of a flag, without the dashes. -/
def name : Flag → String
  | verbose => "verbose"
  | json => "json"
  | help => "help"
  | version => "version"

/-- The letter of a flag. -/
def letter? : Flag → Option Char
  | verbose => some 'v'
  | json => none
  | help => some 'h'
  | version => some 'V'

/-- A flag as the user writes it in full. -/
def long (flag : Flag) : String :=
  "--" ++ flag.name

/-- Whether a flag is an option of a run.  The others ask for an answer instead
of a run. -/
def isOption : Flag → Bool
  | verbose => true
  | json => true
  | help => false
  | version => false

/-- The flag with a name. -/
def ofName? (name : List Char) : Option Flag :=
  all.find? fun flag => flag.name.toList = name

/-- The flag with a letter. -/
def ofLetter? (letter : Char) : Option Flag :=
  all.find? fun flag => flag.letter? = some letter

/-- The least similarity, itself excluded, that makes a name worth a tip. -/
def similarityThreshold : Float := 0.7

/-- The flag whose name is most similar to `name`, if any is similar enough.  Of
flags that are equally similar it is the last. -/
def similar? (name : List Char) : Option Flag :=
  let scored := all.map fun flag => (flag, Similarity.score name flag.name.toList)
  let candidates := scored.filter fun candidate => similarityThreshold < candidate.2
  (candidates.foldl (fun best candidate =>
    match best with
    | some (flag, score) => if score ≤ candidate.2 then some candidate else some (flag, score)
    | none => some candidate) none).map Prod.fst

end Flag

end NetlistSplit
