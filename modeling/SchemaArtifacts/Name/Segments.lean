import SchemaArtifacts.Name.Url

/-!
# From a name to path segments

A name is a plain path (`schema/types`), a web URL (`http://host/schema/`) or an opaque URI
(`urn:example:a`). Each is cut into the segments of a path below the cache's root, one directory
per component. A directory-style path names its `index`.

## Main definitions

* `NameError` — why a name has no place in the cache, with `NameError.message`
* `Name.scheme?` — the scheme of a name and what follows its colon
* `Name.pathSegments` — the segments of a slash-separated path
* `Name.segments` — the segments of a name, each checked

## Main results

* `Name.isAllowed_of_segments` — every segment of a name is allowed
-/

namespace SchemaArtifacts

/-- Why a name has no place in the cache. -/
inductive NameError where
  /-- Nothing is left of the name. -/
  | empty (name : String)
  /-- A web URL has a query or a fragment. -/
  | queryOrFragment (name : String)
  /-- A web URL has no host. -/
  | missingHost (name : String)
  /-- A hierarchical URL is not a web URL. -/
  | foreignScheme (scheme name : String)
  /-- A segment would leave the directory or is not portable. -/
  | badSegment (segment name : String)
  /-- The authority of a web URL is malformed. -/
  | malformed (cause : AuthorityError)
  deriving Repr, DecidableEq

namespace NameError

/-- The text of a refusal. -/
def message : NameError → String
  | .empty name => "Empty cache name: " ++ Text.quoted name
  | .queryOrFragment name => "Query or fragment in cache name: " ++ Text.quoted name
  | .missingHost name => "Missing host in cache name: " ++ Text.quoted name
  | .foreignScheme scheme name =>
    "Unsupported URL scheme " ++ Text.quoted scheme ++ " in " ++ Text.quoted name
  | .badSegment segment name =>
    "Invalid path segment " ++ Text.quoted segment ++ " in " ++ Text.quoted name
  | .malformed cause => cause.message

/-- A refusal of the cache itself, as opposed to a URL that cannot be read. -/
def isUnsupported : NameError → Bool
  | .malformed _ => false
  | _ => true

end NameError

namespace Name

/-- The characters of a scheme after its first letter. -/
def isSchemeChar (c : Char) : Bool := c.isAlphanum || c = '+' || c = '.' || c = '-'

/-- A text without its final line feed, provided that it then holds none. -/
def singleLine? (s : List Char) : Option (List Char) :=
  match Text.cut? '\n' s with
  | none => some s
  | some (line, []) => some line
  | some _ => none

/-- The scheme of a name and what follows its colon. A scheme starts with a letter, and what follows
it is a single line. -/
def scheme? (s : List Char) : Option (List Char × List Char) :=
  match Text.cut? ':' s with
  | none => none
  | some (scheme, rest) =>
    if scheme.head?.any Char.isAlpha && scheme.all isSchemeChar then
      (singleLine? rest).map fun line => (scheme, line)
    else none

/-- The stem that stands for a directory. -/
def index : List Char := ['i', 'n', 'd', 'e', 'x']

/-- The parts of a path that name no entry of their own: the directory itself and its parent. -/
def isDots (segment : List Char) : Bool := segment = ['.'] || segment = ['.', '.']

/-- The final segment of a path: a directory names its index, and a bare suffix is the suffix of
that index. -/
def leaf (last : List Char) : List Char :=
  if last.isEmpty then index
  else if last.head? = some '.' && !isDots last then index ++ last
  else last

/-- The segments of a slash-separated path. The empty path has none. -/
def pathSegments (path : List Char) : List (List Char) :=
  let (dirs, last) := (Text.cutLast? '/' path).getD ([], path)
  Text.pieces (· = '/') dirs ++ if path.isEmpty then [] else [leaf last]

/-- A segment is allowed unless it is a dot part or holds a backslash or the null character. -/
def isAllowed (segment : List Char) : Bool :=
  !isDots segment && !segment.contains '\\' && !segment.contains (Char.ofNat 0)

/-- The schemes of the web. -/
def isWeb (scheme : List Char) : Bool :=
  scheme = ['h', 't', 't', 'p'] || scheme = ['h', 't', 't', 'p', 's']

/-- The segments of a web URL, given what follows its scheme: the authority, then the path. -/
def webSegments (name : String) (rest : List Char) : Except NameError (List (List Char)) := do
  let url ← (Url.ofSchemeless? rest).mapError .malformed
  if !url.query.isEmpty || !url.fragment.isEmpty then throw (.queryOrFragment name)
  if url.authority.isEmpty then throw (.missingHost name)
  return url.authority :: pathSegments url.path

/-- The segments of a name before they are checked. -/
def rawSegments (name : String) : Except NameError (List (List Char)) := do
  let stripped := name.toList.dropWhile (· = '/')
  if stripped.isEmpty then throw (.empty name)
  match scheme? stripped with
  | none => return pathSegments stripped
  | some (scheme, rest) =>
    let scheme := scheme.map Char.toLower
    if isWeb scheme then webSegments name rest
    else if ['/', '/'].isPrefixOf rest then throw (.foreignScheme (String.ofList scheme) name)
    else return scheme :: Text.pieces (fun c => c = ':' || c = '/') rest

/-- The segments of a name. -/
def segments (name : String) : Except NameError (List (List Char)) := do
  let segments ← rawSegments name
  if segments.isEmpty then throw (.empty name)
  match segments.find? (fun segment => !isAllowed segment) with
  | some segment => throw (.badSegment (String.ofList segment) name)
  | none => return segments

theorem isAllowed_of_segments {name : String} {ss : List (List Char)}
    (h : segments name = .ok ss) : ∀ s ∈ ss, isAllowed s = true := by
  simp only [segments, bind, Except.bind] at h
  split at h
  · cases h
  · split at h
    · cases h
    · split at h
      · cases h
      · rename_i hnone
        cases h
        simpa using hnone

end Name

end SchemaArtifacts
