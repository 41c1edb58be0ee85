import SchemaArtifacts.Text.Cut
import SchemaArtifacts.Text.Quoted

/-!
# The authority of a URL

The authority of a URL is the stretch between its two slashes and its path. Brackets may only hold
an address literal, and no character may turn into a delimiter under compatibility normalization.

## Main definitions

* `AuthorityError` — why an authority is refused, with `AuthorityError.message`
* `Authority.isIpv4`, `Authority.isIpv6` — the two families of numeric addresses
* `Authority.checkBrackets` — brackets are paired, stand around the host alone and hold a literal
* `Authority.hidesDelimiter` — the characters whose compatibility form holds a delimiter
* `Authority.check` — both checks, brackets first
-/

namespace SchemaArtifacts

/-- Why an authority is refused. -/
inductive AuthorityError where
  /-- Brackets are not paired, or do not stand around the host alone. -/
  | brackets
  /-- A literal of a future version has no dot or nothing after it. -/
  | futureLiteral
  /-- A dotted address stands in brackets. -/
  | dottedInBrackets
  /-- What stands in brackets is no address. -/
  | notAnAddress (host : String)
  /-- A character hides a delimiter. -/
  | hiddenDelimiter (authority : String)
  deriving Repr, DecidableEq

/-- The text of a refusal. -/
def AuthorityError.message : AuthorityError → String
  | .brackets => "Invalid IPv6 URL"
  | .futureLiteral => "IPvFuture address is invalid"
  | .dottedInBrackets => "An IPv4 address cannot be in brackets"
  | .notAnAddress host => Text.quoted host ++ " does not appear to be an IPv4 or IPv6 address"
  | .hiddenDelimiter authority =>
    "netloc '" ++ authority ++ "' contains invalid characters under NFKC normalization"

namespace Authority

/-- A decimal octet has one to three digits, no leading zero, and is at most 255. -/
def isOctet (s : List Char) : Bool :=
  s.all Char.isDigit && 0 < s.length && s.length ≤ 3
    && (s == ['0'] || s.head? != some '0')
    && s.foldl (fun n c => 10 * n + (c.toNat - 48)) 0 ≤ 255

/-- Four decimal octets between dots. -/
def isIpv4 (s : List Char) : Bool :=
  let octets := s.splitOn '.'
  octets.length == 4 && octets.all isOctet

/-- One to four hexadecimal digits. -/
def isHextet (s : List Char) : Bool :=
  s.all (fun c => (Text.hexValue? c).isSome) && 0 < s.length && s.length ≤ 4

/-- The groups on one side of a gap; a gap at the edge of the address leaves an empty group
there. -/
def sideOfGap (groups : List (List Char)) : List (List Char) :=
  if groups = [[]] then [] else groups

/-- Eight groups, or fewer around a single gap that stands for at least one group of zeros. -/
def isGroupList (groups : List (List Char)) : Bool :=
  let inner := (groups.drop 1).dropLast
  match inner.countP List.isEmpty with
  | 0 => groups.length == 8 && groups.all isHextet
  | 1 =>
    let gap := inner.findIdx List.isEmpty + 1
    let high := sideOfGap (groups.take gap)
    let low := sideOfGap (groups.drop (gap + 1))
    high.length + low.length ≤ 7 && high.all isHextet && low.all isHextet
  | _ => false

/-- Groups between colons, the last two of which may be written as a dotted address. -/
def isGrouped (s : List Char) : Bool :=
  let groups := s.splitOn ':'
  let last := groups.getLastD []
  let dotted := last.contains '.'
  let groups' := if dotted then groups.dropLast ++ [['0'], ['0']] else groups
  3 ≤ groups.length && groups'.length ≤ 9 && (!dotted || isIpv4 last) && isGroupList groups'

/-- A grouped address, optionally with a percent sign and a non-empty zone. -/
def isIpv6 (s : List Char) : Bool :=
  match Text.cut? '%' s with
  | none => isGrouped s
  | some (address, zone) => !zone.isEmpty && !zone.contains '%' && isGrouped address

/-- A literal of a future version: `v`, hexadecimal digits, a dot, and something after it. -/
def isFutureLiteral (s : List Char) : Bool :=
  match Text.cut? '.' (s.drop 1) with
  | none => false
  | some (version, rest) =>
    !version.isEmpty && version.all (fun c => (Text.hexValue? c).isSome) && !rest.isEmpty

/-- What may stand in brackets: a future literal, or a grouped address. -/
def checkLiteral (host : List Char) : Except AuthorityError Unit :=
  if host.head? = some 'v' then
    if isFutureLiteral host then .ok () else .error .futureLiteral
  else if isIpv4 host then .error .dottedInBrackets
  else if isIpv6 host then .ok ()
  else .error (.notAnAddress (String.ofList host))

/-- Brackets come in both kinds or not at all. When they do, the host after any user part is
checked: nothing may stand before its opening bracket, and after its closing one only a colon and
what follows it. -/
def checkBrackets (authority : List Char) : Except AuthorityError Unit :=
  if authority.contains '[' != authority.contains ']' then .error .brackets
  else if !authority.contains '[' then .ok ()
  else
    let server := match Text.cutLast? '@' authority with
      | some (_, rest) => rest
      | none => authority
    match Text.cut? '[' server with
    | some (before, inside) =>
      let (host, after) := (Text.cut? ']' inside).getD (inside, [])
      if !before.isEmpty || (after.head?.any (· != ':')) then .error .brackets
      else checkLiteral host
    | none => checkLiteral (server.takeWhile (· != ':'))

/-- Characters other than the delimiters themselves whose compatibility form holds one of
`/`, `?`, `#`, `@` and `:`. -/
def hidesDelimiter (c : Char) : Bool :=
  [0x2047, 0x2048, 0x2049, 0x2100, 0x2101, 0x2105, 0x2106, 0x2a74, 0xfe13, 0xfe16, 0xfe55, 0xfe56,
    0xfe5f, 0xfe6b, 0xff03, 0xff0f, 0xff1a, 0xff1f, 0xff20].contains c.toNat

/-- The whole check of an authority. -/
def check (authority : List Char) : Except AuthorityError Unit := do
  checkBrackets authority
  if authority.any hidesDelimiter then
    throw (.hiddenDelimiter (String.ofList authority))

end Authority

end SchemaArtifacts
