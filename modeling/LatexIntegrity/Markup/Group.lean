import LatexIntegrity.Text.Basic

/-!
Argument groups at the head of a text.  Each function answers with the number
of bytes of the group, delimiters included.
-/

namespace LatexIntegrity.Group

/--
The bytes up to and including the brace that closes a group in which `depth`
inner groups are open.  A backslash takes the byte behind it literally.  No more
than `limit` inner groups may be open at once.
-/
def closing? (limit : Nat) (depth : Nat) : Text → Option Nat
  | [] => none
  | b :: rest =>
      if b == '\\' then
        match rest with
        | [] => none
        | _ :: behind => (closing? limit depth behind).map (· + 2)
      else if b == '{' then
        if limit < depth + 1 then none
        else (closing? limit (depth + 1) rest).map (· + 1)
      else if b == '}' then
        match depth with
        | 0 => some 1
        | outer + 1 => (closing? limit outer rest).map (· + 1)
      else (closing? limit depth rest).map (· + 1)

def braced? (limit : Nat) : Text → Option Nat
  | [] => none
  | b :: rest => if b == '{' then (closing? limit 0 rest).map (· + 1) else none

/-- From `opener` to the first `closer`, whatever stands between them. -/
def flat? (opener closer : UInt8) : Text → Option Nat
  | [] => none
  | b :: rest =>
      if b == opener then (rest.findIdx? (· == closer)).map (· + 2) else none

def argument? : Text → Option Nat := flat? '{' '}'

def optional? : Text → Option Nat := flat? '[' ']'

def body (length : Nat) (text : Text) : Text := (text.drop 1).take (length - 2)

end LatexIntegrity.Group
