/-!
# Addresses

An address names one entry to store: a web URL or an output path.

## Main definitions

* `Address` — a URL or path, and whether it denotes a file outside the cache
* `Address.ofUrl` — an address that is local unless it is a web URL
* `Address.ofOutput` — the address of an output name, never local

## Main results

* `Address.isLocal_ofOutput` — an output address is never local
-/

namespace SchemaArtifacts

/-- What identifies one stored entry. -/
structure Address where
  url : String
  /-- The address denotes a file outside the cache. -/
  isLocal : Bool
  deriving Repr, DecidableEq

namespace Address

/-- A web URL starts with `http://` or `https://`, in lower case. -/
def isRemoteUrl (url : String) : Bool :=
  "http://".toList.isPrefixOf url.toList || "https://".toList.isPrefixOf url.toList

/-- The address denotes a web URL. -/
def isRemote (a : Address) : Bool := isRemoteUrl a.url

/-- An address, local unless it is a web URL or the caller says otherwise. -/
def ofUrl (url : String) (isLocal : Option Bool := none) : Address :=
  { url, isLocal := isLocal.getD !isRemoteUrl url }

/-- An output path is read from the top directory. -/
def fromTop (path : String) : String :=
  if path.toList.head? = some '/' then path else "/" ++ path

/-- The address of an output name: a web URL as it stands, any other name as a path from the top. -/
def ofOutput (name : String) : Address :=
  { url := if isRemoteUrl name then name else fromTop name, isLocal := false }

@[simp] theorem isLocal_ofOutput (name : String) : (ofOutput name).isLocal = false := rfl

end Address

end SchemaArtifacts
