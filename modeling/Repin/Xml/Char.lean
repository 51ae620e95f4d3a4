/-!
# Character classes of XML

The productions `Char`, `S`, `NameStartChar` and `NameChar` of XML 1.0. A surrogate is no character
at all, so `Char` refuses only control characters and the last two of the basic plane.
-/
namespace Repin.Xml

-- Blanks of markup.
def isSpace (c : Char) : Bool :=
  c == ' ' || c == '\t' || c == '\n' || c == '\r'

-- The characters that may stand in a document.
def isXmlChar (c : Char) : Bool :=
  if c.toNat < 0x20 then c == '\t' || c == '\n' || c == '\r'
  else c.toNat != 0xFFFE && c.toNat != 0xFFFF

-- The ranges beyond ASCII of the characters that may start a name.
def nameStartRanges : List (Nat × Nat) :=
  [(0xC0, 0xD6), (0xD8, 0xF6), (0xF8, 0x2FF), (0x370, 0x37D), (0x37F, 0x1FFF), (0x200C, 0x200D),
   (0x2070, 0x218F), (0x2C00, 0x2FEF), (0x3001, 0xD7FF), (0xF900, 0xFDCF), (0xFDF0, 0xFFFD),
   (0x10000, 0xEFFFF)]

def isNameStart (c : Char) : Bool :=
  c.isAlpha || c == ':' || c == '_'
    || nameStartRanges.any fun (first, last) => first ≤ c.toNat && c.toNat ≤ last

def isNameChar (c : Char) : Bool :=
  isNameStart c || c.isDigit || c == '-' || c == '.' || c.toNat == 0xB7
    || (0x300 ≤ c.toNat && c.toNat ≤ 0x36F) || (0x203F ≤ c.toNat && c.toNat ≤ 0x2040)

-- A name of an element or attribute; without a colon it has no qualifier.
structure QName where
  qualifier : String
  localName : String
  deriving DecidableEq, Repr

end Repin.Xml
