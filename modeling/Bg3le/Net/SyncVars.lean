import Bg3le.Net.Wrapper

/-!
# Splitting a variable sync into packets: the loop of `l_net_sync_vars`
-/

namespace Bg3le
namespace Net

/-- The budget a part may use before it is sent. -/
def kSyncBudget : ℕ := 0x40000

/-- What the loop adds to `budget` for a variable. -/
def estimate (v : NetUserVar) : ℕ := v.key.length + v.s.length + 64

/-- The inner loop: moves variables from `rest` into `part` while `budget` allows. Returns the
part and what is left. -/
def fillPart (part : List NetUserVar) (budget : ℕ) :
    List NetUserVar → List NetUserVar × List NetUserVar
  | [] => (part, [])
  | v :: rest =>
    if part = [] ∨ budget < kSyncBudget then fillPart (part ++ [v]) (budget + estimate v) rest
    else (part, v :: rest)

/-- The outer loop. Every round takes a variable, so `fuel` is the number of variables. -/
def splitLoop : ℕ → List NetUserVar → List (List NetUserVar)
  | 0, _ => []
  | _ + 1, [] => []
  | fuel + 1, v :: vars =>
    let (part, rest) := fillPart [] 0 (v :: vars)
    part :: splitLoop fuel rest

/-- The parts `l_net_sync_vars` sends, in order. -/
def splitVars (vars : List NetUserVar) : List (List NetUserVar) := splitLoop vars.length vars

/-- The packet of one part. -/
def encodePart (part : List NetUserVar) : Bytes := encode { kind := .userVars, vars := part }

end Net
end Bg3le
