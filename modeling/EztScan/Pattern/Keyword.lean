import EztScan.Pattern.Basic

/-!
# Keywords of a pattern

The texts that an element has to have, in small letters, so that a pattern has a chance to fit from
there on. Most patterns say nothing about it.
-/

namespace EztScan.Pattern

mutual

/-- The keywords of a pattern, or `none` if any element will do. -/
def keywords : Pattern → Except Fault (Option (List String))
  | .word text => .ok (some [Text.lower text])
  | .seq ps =>
    match ps with
    | [] => .error .sequenceEmpty
    | .word text :: _ => .ok (some [Text.lower text])
    | _ => .ok none
  | .oneOf ps => keywordsOfAll ps
  | _ => .ok none

/-- The keywords of some alternatives, or `none` if one of them has none. -/
def keywordsOfAll : List Pattern → Except Fault (Option (List String))
  | [] => .ok (some [])
  | p :: ps =>
    match p.keywords with
    | .error f => .error f
    | .ok none => .ok none
    | .ok (some []) => .ok none
    | .ok (some ks) =>
      match keywordsOfAll ps with
      | .error f => .error f
      | .ok none => .ok none
      | .ok (some rest) => .ok (some (ks ++ rest))

end

end EztScan.Pattern
