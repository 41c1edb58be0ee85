import SchemaArtifacts.Session.Line

/-!
# Storing together

## Main definitions

* `Session.callAll` — each caller takes a step, in order
* `Session.results` — what the callers were served with
* `Cache.storeAll` — texts are stored together
* `Cache.storeCancelled`, `Cache.storeCalledOff` — some wait for one text, and the first of them
  gives up, or the write is called off
-/

namespace SchemaArtifacts

namespace Session

/-- Each caller takes a step, in order. -/
def callAll (s : Session) : Session := s.playAll ((List.range s.callers.length).map .call)

/-- What the callers were served with; nobody else is served any more. -/
def results (s : Session) : List (Except Failure AbsolutePath) :=
  s.callers.map fun caller => caller.result?.getD (.error .cancelled)

end Session

namespace Cache

/-- A session in which texts are to be stored. -/
def callers (c : Cache) (stores : List (Address × String)) : Session :=
  { cache := c, callers := stores.map fun (address, content) => { address, content } }

/-- Stores texts together: all are asked for before any write begins. -/
def storeAll (c : Cache) (stores : List (Address × String)) :
    Cache × List (Except Failure AbsolutePath) :=
  let s := (c.callers stores).finish
  (s.cache, s.results)

/-- `count` callers wait for one text to be stored, and the first of them gives up before its write
begins. -/
def storeCancelled (c : Cache) (a : Address) (content : String) (count : Nat) :
    Cache × List (Except Failure AbsolutePath) :=
  let s := ((c.callers (List.replicate count (a, content))).callAll.play (.giveUp 0)).finish
  (s.cache, s.results)

/-- `count` callers wait for one text to be stored, and its write is called off before it begins. -/
def storeCalledOff (c : Cache) (a : Address) (content : String) (count : Nat) :
    Cache × List (Except Failure AbsolutePath) :=
  let s := (c.callers (List.replicate count (a, content))).callAll
  let off := match s.callers[0]?.map Caller.stage with
    | some (.waiting id) => s.play (.callOff id)
    | _ => s
  let s := off.finish
  (s.cache, s.results)

end Cache

end SchemaArtifacts
