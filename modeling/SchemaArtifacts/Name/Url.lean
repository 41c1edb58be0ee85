import SchemaArtifacts.Name.Authority

/-!
# Splitting a URL

A URL is read after its scheme and colon. Tabs and line breaks inside it do not count. The authority
ends at the first of `/`, `?` and `#`; the fragment starts at the first `#`, the query at the first
`?` before it.

## Main definitions

* `Url` — authority, path, query and fragment
* `Url.ofSchemeless?` — the split of what follows the colon, with the authority checked

## Main results

* `Url.authority_of_ofSchemeless?` — an authority holds none of the characters that end it
-/

namespace SchemaArtifacts

/-- The parts of a URL after its scheme. -/
structure Url where
  authority : List Char := []
  path : List Char := []
  query : List Char := []
  fragment : List Char := []
  deriving Repr, DecidableEq

namespace Url

/-- Tab, carriage return and line feed, which a URL silently loses. -/
def isDropped (c : Char) : Bool := c = '\t' || c = '\r' || c = '\n'

/-- The characters that end an authority. -/
def endsAuthority (c : Char) : Bool := c = '/' || c = '?' || c = '#'

/-- The parts before and after the first `c`; the second is empty where there is none. -/
def cutOff (c : Char) (s : List Char) : List Char × List Char := (Text.cut? c s).getD (s, [])

/-- The authority and what follows it; without two slashes there is no authority. -/
def splitAuthority : List Char → List Char × List Char
  | '/' :: '/' :: rest =>
    (rest.takeWhile fun c => !endsAuthority c, rest.dropWhile fun c => !endsAuthority c)
  | rest => ([], rest)

/-- Splits what follows the scheme and its colon. -/
def ofSchemeless? (s : List Char) : Except AuthorityError Url := do
  let (authority, rest) := splitAuthority (s.filter fun c => !isDropped c)
  Authority.check authority
  let (rest, fragment) := cutOff '#' rest
  let (path, query) := cutOff '?' rest
  return { authority, path, query, fragment }

theorem endsAuthority_of_mem_splitAuthority {s : List Char} {c : Char}
    (h : c ∈ (splitAuthority s).1) : endsAuthority c = false := by
  unfold splitAuthority at h
  split at h
  · simpa using (List.all_takeWhile (p := fun c => !endsAuthority c) |> List.all_eq_true.1) c h
  · simp at h

theorem authority_of_ofSchemeless? {s : List Char} {u : Url} (h : ofSchemeless? s = .ok u) :
    ∀ c ∈ u.authority, endsAuthority c = false := by
  intro c hc
  simp only [ofSchemeless?, bind, Except.bind] at h
  split at h
  · cases h
  · cases h
    exact endsAuthority_of_mem_splitAuthority hc

end Url

end SchemaArtifacts
