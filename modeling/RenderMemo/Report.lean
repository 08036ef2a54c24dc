namespace RenderMemo

-- What a run did to one program. Render functions are counted with those that hoisting made, and
-- rewritten ones are those that were given a binder.
structure Report where
  renderFunctions    : Nat  := 0
  rewrittenFunctions : Nat  := 0
  bindSites          : Nat  := 0
  hoistedClosures    : Nat  := 0
  importInserted     : Bool := false
deriving DecidableEq, Repr

namespace Report

def isUnchanged (r : Report) : Bool := !r.importInserted

def text (r : Report) : String :=
  toString r.rewrittenFunctions ++ " of " ++ toString r.renderFunctions ++
    " render functions rewritten (" ++ toString r.bindSites ++ " bind calls, " ++
    toString r.hoistedClosures ++ " hoisted closures)"

end Report

end RenderMemo
