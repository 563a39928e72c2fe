import HtmlDeps.Path.Basic
import HtmlDeps.Text.Utf8

/-!
# Files

A file is a path and its contents.  Its text is read so that no byte is lost.

This is `File` (full specification, section Data model).
-/

namespace HtmlDeps

/-- A file on its way through a build. -/
structure File where
  path : Path
  contents : Bytes
deriving DecidableEq, Repr

def File.text (f : File) : Text := Text.decode f.contents

/-- The key under which a path is grouped: its logical form. -/
def Path.key (p : Path) : Text := Path.logical p.toText

end HtmlDeps
