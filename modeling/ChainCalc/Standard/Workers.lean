import ChainCalc.Registry
/-!
# Workers — who evaluates, and what workers share
-/
namespace ChainCalc
namespace Standard

def workerIdEntry : Entry where
  name := "worker_id"
  patterns := [.ofExpr (.call "worker_id" [])]
  factory := fun _ _ label => .ok (.worker .id label)
  help := "index of the worker running this evaluation"

def workerCountEntry : Entry where
  name := "worker_count"
  patterns := [.ofExpr (.call "worker_count" [])]
  factory := fun _ _ label => .ok (.worker .count label)
  help := "number of workers in the job"

def fetchEntry : Entry where
  name := "fetch"
  patterns := [.ofExpr (.call "fetch" [.ident "_key"])]
  factory := fun bound _ label => do
    return .fetch label (← bound.one "_key")
  help := "value stored under _key in the shared array store"

def workers : List Entry := [workerIdEntry, workerCountEntry, fetchEntry]

end Standard
end ChainCalc
