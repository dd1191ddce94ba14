import DirectoryHistory.Text.Hex
import DirectoryHistory.Text.Hidden

/-!
# Quoted text

Text in double quotes, as messages show the input they reject. Quotes and backslashes are escaped,
and a character without a visible form is shown by its number.
-/

namespace DirectoryHistory.Text

def quotedChar (c : Char) : List Char :=
  if c = '"' then ['\\', '"']
  else if c = '\\' then ['\\', '\\']
  else if c = '\n' then ['\\', 'n']
  else if c = '\r' then ['\\', 'r']
  else if c = '\t' then ['\\', 't']
  else if c = '\x00' then ['\\', '0']
  else if isHidden c then ['\\', 'u', '\x7b'] ++ hexDigits c.toNat ++ ['\x7d']
  else [c]

def quoted (s : String) : String :=
  String.ofList ('"' :: s.toList.flatMap quotedChar ++ ['"'])

end DirectoryHistory.Text
