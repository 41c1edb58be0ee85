import SchemaArtifacts.Failure
import SchemaArtifacts.Json.Reader
import SchemaArtifacts.Model.Description

/-!
# Schemas from files

## Main definitions

* `Schema.ofBytes` — the schema whose description a file holds
-/

namespace SchemaArtifacts

/-- The schema whose description the bytes of a file hold: a text in UTF-8, lines ended in any
way. -/
def Schema.ofBytes (bytes : List UInt8) : Except Failure Schema := do
  let text ← (Text.decodeUtf8 bytes).mapError .undecodable
  let description ← (Json.parse (Text.unifyLines text)).mapError .unreadable
  (Schema.ofJson description).mapError .shape

end SchemaArtifacts
