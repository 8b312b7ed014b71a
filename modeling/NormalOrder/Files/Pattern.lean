import NormalOrder.Files.Basic

/-!
# File patterns

A pattern for names: `*` stands for any characters, `?` for one, `[ab-f]` for one of a set and
`[!ab]` for one outside it; a bracket that is not closed stands for itself. A pattern does not reach
across a slash, and a name that starts with a dot is matched only by a pattern that does.
-/

namespace NormalOrder.Files

/-- What stands in a set. -/
inductive Pattern.Item
  | single (c : Char)
  | range (lo hi : Char)

inductive Pattern.Piece
  | exactly (c : Char)
  | one
  | many
  /-- A character in one of the items, or in none of them. -/
  | oneOf (inside : Bool) (items : List Pattern.Item)

abbrev Pattern := List Pattern.Piece

namespace Pattern

def Item.holds : Item → Char → Bool
  | single c, d => c = d
  | range lo hi, d => lo ≤ d && d ≤ hi

/-- Whether no character is in a range. -/
def Item.isEmpty : Item → Bool
  | single _ => false
  | range lo hi => hi < lo

/-- The items of a set. A dash stands for itself at either end. -/
def items : List Char → List Item
  | [] => []
  | lo :: '-' :: hi :: rest => .range lo hi :: items rest
  | c :: rest => .single c :: items rest

/-- The characters of a set up to its closing bracket, and what follows. A bracket that comes first
is part of the set. -/
def takeSet (cs : List Char) : Option (List Char × List Char) :=
  let first := if cs.head? = some ']' then 1 else 0
  let body := (cs.drop first).takeWhile (· ≠ ']')
  match (cs.drop first).dropWhile (· ≠ ']') with
  | [] => none
  | _ :: rest => some (cs.take first ++ body, rest)

theorem length_lt_of_takeSet {cs set rest : List Char} (h : takeSet cs = some (set, rest)) :
    rest.length < cs.length := by
  unfold takeSet at h
  simp only at h
  split at h
  · cases h
  · next c rest' hd =>
    cases h
    have h₁ := (List.dropWhile_suffix (l := cs.drop (if cs.head? = some ']' then 1 else 0))
      (· ≠ ']')).length_le
    rw [hd] at h₁
    simp only [List.length_cons, List.length_drop] at h₁
    omega

/-- The piece for a set. Empty ranges are left out. If an exclamation mark comes first then, it
turns the rest around, and a dash behind it stands for itself. -/
def Piece.ofSet (set : List Char) : Piece :=
  match (items set).filter fun i => !i.isEmpty with
  | .single '!' :: rest => .oneOf false rest
  | .range '!' hi :: rest => .oneOf false (.single '-' :: .single hi :: rest)
  | rest => .oneOf true rest

def ofChars (cs : List Char) : Pattern :=
  match cs with
  | [] => []
  | '*' :: rest => .many :: ofChars rest
  | '?' :: rest => .one :: ofChars rest
  | '[' :: '!' :: rest =>
    match h : takeSet rest with
    | some (set, rest') =>
      have := length_lt_of_takeSet h
      .oneOf false (items set) :: ofChars rest'
    | none => .exactly '[' :: ofChars ('!' :: rest)
  | '[' :: rest =>
    match h : takeSet rest with
    | some (set, rest') =>
      have := length_lt_of_takeSet h
      .ofSet set :: ofChars rest'
    | none => .exactly '[' :: ofChars rest
  | c :: rest => .exactly c :: ofChars rest
termination_by cs.length

def Piece.accepts : Piece → Char → Bool
  | exactly c, d => c = d
  | one, _ => true
  | many, _ => true
  | oneOf inside items, c => (items.any (·.holds c)) == inside

def Piece.isMany : Piece → Bool
  | many => true
  | _ => false

/-- Whether a pattern matches a text. -/
def fits : Pattern → List Char → Bool
  | [], cs => cs.isEmpty
  | p :: ps, [] => p.isMany && fits ps []
  | p :: ps, c :: cs =>
    if p.isMany then fits ps (c :: cs) || fits (p :: ps) cs else p.accepts c && fits ps cs
termination_by ps cs => ps.length + cs.length

/-- Whether a piece and a pattern behind it match, for a text and each shorter end of it, from
whether the pattern alone does. -/
def Piece.extend (p : Piece) : List Char → List Bool → List Bool
  | c :: cs, here :: shorter =>
    let rest := p.extend cs shorter
    (if p.isMany then here || rest.headD false else p.accepts c && shorter.headD false) :: rest
  | _, ends => ends.map (p.isMany && ·)

/-- Whether a pattern matches, for a text and each shorter end of it. Every end is looked at once
for each piece, however many pieces match any characters. -/
def fitsEnds (cs : List Char) : Pattern → List Bool
  | [] => cs.foldr (fun _ ends => false :: ends) [true]
  | p :: ps => p.extend cs (fitsEnds cs ps)

def isMatch (ps : Pattern) (cs : List Char) : Bool :=
  (fitsEnds cs ps).headD false

theorem fits_cons_cons (p : Piece) (ps : Pattern) (c : Char) (cs : List Char) :
    fits (p :: ps) (c :: cs) =
      if p.isMany then fits ps (c :: cs) || fits (p :: ps) cs else p.accepts c && fits ps cs := by
  rw [fits]

theorem fitsEnds_nil (ps : Pattern) : fitsEnds [] ps = [fits ps []] := by
  induction ps with
  | nil => simp [fitsEnds, fits]
  | cons p ps ih => simp [fitsEnds, fits, ih, Piece.extend]

theorem fitsEnds_cons (ps : Pattern) (c : Char) (cs : List Char) :
    fitsEnds (c :: cs) ps = fits ps (c :: cs) :: fitsEnds cs ps := by
  induction ps generalizing c cs with
  | nil => simp [fitsEnds, fits]
  | cons p ps ih =>
    induction cs generalizing c with
    | nil =>
      have h : fitsEnds [] (p :: ps) = [fits (p :: ps) []] := fitsEnds_nil _
      simp only [fitsEnds] at h ⊢
      rw [ih, Piece.extend, h, fitsEnds_nil, fits_cons_cons p ps c]
      rfl
    | cons d cs ihcs =>
      have h := ihcs d
      simp only [fitsEnds] at h ⊢
      rw [ih, Piece.extend, h, ih, fits_cons_cons p ps c]
      rfl

/-- Looking at ends finds what the definition of matching says. -/
theorem isMatch_eq_fits (ps : Pattern) (cs : List Char) : isMatch ps cs = fits ps cs := by
  cases cs with
  | nil => rw [isMatch, fitsEnds_nil]; rfl
  | cons c cs => rw [isMatch, fitsEnds_cons]; rfl

end Pattern

/-- Whether a text holds a character with a meaning in patterns. -/
def isPattern (text : String) : Bool :=
  text.toList.any fun c => c = '*' || c = '?' || c = '['

/-- A path as the directory in front of its last slash and the name behind it. Slashes at the end of
the directory are dropped unless it is nothing else. -/
def splitName (path : String) : String × String :=
  let behind := (path.toList.reverse.takeWhile (· ≠ '/')).reverse
  let front := path.toList.take (path.length - behind.length)
  let bare := (front.reverse.dropWhile (· = '/')).reverse
  (String.ofList (if bare.isEmpty then front else bare), String.ofList behind)

def joinName (directory name : String) : String :=
  if directory.isEmpty ∨ directory.toList.getLast? = some '/' then directory ++ name
  else directory ++ "/" ++ name

/-- The names in a directory that match a pattern. -/
def matchingNames (files : Files) (directory pattern : String) : List String :=
  let hidden (name : String) : Bool := name.toList.head? = some '.'
  let all := files.names (if directory.isEmpty then "." else directory)
  all.filter fun name =>
    (hidden pattern || !hidden name) && (Pattern.ofChars pattern.toList).isMatch name.toList

/-- The directories that a path with patterns leads to. -/
def matchingDirectories (files : Files) (path : String) : List String :=
  if isPattern path then
    let (above, name) := splitName path
    let directories :=
      if above.length < path.length then files.matchingDirectories above else [above]
    directories.flatMap fun directory =>
      let found :=
        if isPattern name then
          (files.matchingNames directory name).filter fun n =>
            files.isDirectory (joinName directory n)
        else if files.contains (joinName directory name) then [name]
        else []
      found.map (joinName directory)
  else [path]
termination_by path.length

/-- The paths that match a path whose last name is a pattern. -/
def expand (files : Files) (path : String) : List String :=
  let (above, name) := splitName path
  (files.matchingDirectories above).flatMap fun directory =>
    (files.matchingNames directory name).map (joinName directory)

end NormalOrder.Files
