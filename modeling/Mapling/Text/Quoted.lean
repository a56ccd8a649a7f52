import Mapling.Text.Extending
import Mapling.Text.Ignorable
import Mapling.Text.Unprintable
import Mapling.Variable

/-! # Quoted names

A list of names is shown in brackets, each name in quotes. Inside the quotes a character that
would not show, or would end the quotes, is escaped. -/

namespace Mapling

/-- Whether a character does not show on its own: it has no printed form, is drawn as nothing,
or is drawn over another. -/
def isHidden (c : Char) : Bool :=
  isUnprintable c || isIgnorable c || (isExtending c && !isSoundMark c)

def quotedChar (c : Char) : List Char :=
  if c = '"' then ['\\', '"']
  else if c = '\\' then ['\\', '\\']
  else if c = '\n' then ['\\', 'n']
  else if c = '\r' then ['\\', 'r']
  else if c = '\t' then ['\\', 't']
  else if c = Char.ofNat 0 then ['\\', '0']
  else if isHidden c then ['\\', 'u', '\x7b'] ++ Nat.toDigits 16 c.toNat ++ ['\x7d']
  else [c]

def quotedName (s : String) : String :=
  String.ofList ('"' :: (s.toList.flatMap quotedChar ++ ['"']))

/-- The names in scope, innermost first, as a list of quoted names. -/
def Env.namesText (env : Env) : String :=
  "[" ++ String.intercalate ", " (env.names.map quotedName) ++ "]"

/-- An environment by the number of its frames. -/
def Env.depthText (env : Env) : String := "FrameEnv(depth " ++ toString env.length ++ ")"

end Mapling
