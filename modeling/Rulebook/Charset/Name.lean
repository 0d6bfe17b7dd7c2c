import Rulebook.Charset.Basic

/-! # Names of encodings

An encoding goes by several names. Letters may be of either case, and what
stands between letters, digits and full stops counts as one underscore. Some
encodings turn bytes into other bytes; they have names but give no text. Only the
encodings of the table are covered, and a name of any other one counts as unknown.
-/

namespace Rulebook

/-- What the name of an encoding stands for: a character set, or an encoding of
bytes as bytes, with its common name. -/
inductive Encoding
  | text (charset : Charset)
  | binary (name : String)
  deriving Repr, DecidableEq

namespace Encoding

/-- A character that counts in the name of an encoding. -/
def isNameChar (c : Char) : Bool := c.isAlphanum || c == '.'

/-- The name in lower case, with an underscore for all that stands between two
characters that count. `started` holds if one has gone before, `gap` if
something has stood since. -/
def normalizeFrom (started gap : Bool) : List Char → List Char
  | [] => []
  | c :: rest =>
      if isNameChar c then
        if started && gap then '_' :: c.toLower :: normalizeFrom true false rest
        else c.toLower :: normalizeFrom true false rest
      else normalizeFrom started true rest

/-- The form in which a name is looked up. -/
def normalize (name : String) : String := String.ofList (normalizeFrom false false name.toList)

/-- An encoding with its proper names, and with the aliases that are also found
where full stops stand for underscores. -/
structure Listing where
  encoding : Encoding
  names : List String
  aliases : List String

/-- The encodings that are known here: UTF-8 and UTF-16, ASCII, Latin-1 and Windows-1252 for
texts, and those of bytes as bytes. Any other one is as good as none: its name is not found. -/
def table : List Listing :=
  [
    ⟨.text .utf8, ["utf_8", "utf_8_sig"],
      ["cp65001", "u8", "utf", "utf8", "utf8_ucs2", "utf8_ucs4"]⟩,
    ⟨.text .utf16, ["utf_16"], ["u16", "utf16"]⟩,
    ⟨.text .utf16LittleEndian, ["utf_16_le"], ["unicodelittleunmarked", "utf_16le"]⟩,
    ⟨.text .utf16BigEndian, ["utf_16_be"], ["unicodebigunmarked", "utf_16be"]⟩,
    ⟨.text .ascii, ["ascii"],
      ["646", "ansi_x3.4_1968", "ansi_x3.4_1986", "ansi_x3_4_1968", "cp367", "csascii", "ibm367",
        "iso646_us", "iso_646.irv_1991", "iso_ir_6", "us", "us_ascii"]⟩,
    ⟨.text .latin1, ["latin_1", "iso8859_1"],
      ["8859", "cp819", "csisolatin1", "ibm819", "iso8859", "iso8859_1", "iso_8859_1",
        "iso_8859_1_1987", "iso_ir_100", "l1", "latin", "latin1"]⟩,
    ⟨.text .windows1252, ["cp1252"], ["1252", "windows_1252"]⟩,
    ⟨.binary "hex", ["hex_codec"], ["hex"]⟩,
    ⟨.binary "rot-13", ["rot_13"], ["rot13"]⟩,
    ⟨.binary "base64", ["base64_codec"], ["base64", "base_64"]⟩,
    ⟨.binary "bz2", ["bz2_codec"], ["bz2"]⟩,
    ⟨.binary "zlib", ["zlib_codec"], ["zip", "zlib"]⟩,
    ⟨.binary "uu", ["uu_codec"], ["uu"]⟩,
    ⟨.binary "quopri", ["quopri_codec"], ["quopri", "quoted_printable", "quotedprintable"]⟩]

/-- Whether an encoding is found under a name in the form for looking up. -/
def Listing.hasName (e : Listing) (name : String) : Bool :=
  e.names.contains name || e.aliases.contains name
    || e.aliases.contains (name.map fun c => if c = '.' then '_' else c)

/-- The encoding with a name. -/
def ofName? (name : String) : Option Encoding :=
  (table.find? fun e => e.hasName (normalize name)).map Listing.encoding

end Encoding

end Rulebook
