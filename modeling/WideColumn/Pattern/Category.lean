import WideColumn.Pattern.CharSet

/-! # Classes of characters by Unicode property, as in `\p{Lu}`

Names of tables are ASCII, so of every class its ASCII characters are given. The scripts are the
ones in wide use, not all there are. -/
namespace WideColumn.Pattern.Category

def letters : CharSet := .ofRanges [('A', 'Z'), ('a', 'z')]

def upper : CharSet := .range 'A' 'Z'

def lower : CharSet := .range 'a' 'z'

def ascii : CharSet := .range '\x00' '\x7f'

def everything : CharSet := .negated .nothing

def controls : CharSet := .ofRanges [('\x00', '\x1f'), ('\x7f', '\x7f')]

def openers : CharSet := .ofRanges [('(', '('), ('[', '['), ('\x7b', '\x7b')]

def closers : CharSet := .ofRanges [(')', ')'), (']', ']'), ('\x7d', '\x7d')]

def otherMarks : CharSet :=
  .ofRanges [('!', '#'), ('%', '\x27'), ('*', '*'), (',', ','), ('.', '/'), (':', ';'), ('?', '@'),
    ('\\', '\\')]

def mathSigns : CharSet := .ofRanges [('+', '+'), ('<', '>'), ('|', '|'), ('~', '~')]

def modifierSigns : CharSet := .ofRanges [('^', '^'), ('\x60', '\x60')]

def punctuation : CharSet :=
  .union (.ofRanges [('_', '_'), ('-', '-')]) (.union openers (.union closers otherMarks))

def signs : CharSet := .union mathSigns (.union modifierSigns (.single '$'))

def general : List (List String × CharSet) :=
  [(["l", "letter"], letters),
   (["lc", "casedletter"], letters),
   (["lu", "uppercaseletter"], upper),
   (["ll", "lowercaseletter"], lower),
   (["lt", "titlecaseletter", "lm", "modifierletter", "lo", "otherletter"], .nothing),
   (["m", "mark", "combiningmark", "mn", "nonspacingmark", "mc", "spacingmark", "me",
     "enclosingmark"], .nothing),
   (["n", "number", "nd", "decimalnumber", "digit"], .range '0' '9'),
   (["nl", "letternumber", "no", "othernumber"], .nothing),
   (["p", "punctuation", "punct"], punctuation),
   (["pc", "connectorpunctuation"], .single '_'),
   (["pd", "dashpunctuation"], .single '-'),
   (["ps", "openpunctuation"], openers),
   (["pe", "closepunctuation"], closers),
   (["pi", "initialpunctuation", "pf", "finalpunctuation"], .nothing),
   (["po", "otherpunctuation"], otherMarks),
   (["s", "symbol"], signs),
   (["sm", "mathsymbol"], mathSigns),
   (["sc", "currencysymbol"], .single '$'),
   (["sk", "modifiersymbol"], modifierSigns),
   (["so", "othersymbol"], .nothing),
   (["z", "separator", "zs", "spaceseparator"], .single ' '),
   (["zl", "lineseparator", "zp", "paragraphseparator"], .nothing),
   (["c", "other", "cc", "control", "cntrl"], controls),
   (["cf", "format", "cs", "surrogate", "co", "privateuse", "cn", "unassigned"], .nothing),
   (["any", "assigned"], everything),
   (["ascii"], ascii)]

def binary : List (List String × CharSet) :=
  [(["alphabetic", "alpha", "cased", "idstart", "ids", "xidstart", "xids"], letters),
   (["uppercase", "upper"], upper),
   (["lowercase", "lower"], lower),
   (["whitespace", "wspace", "space"], .asciiSpace),
   (["asciihexdigit", "ahex", "hexdigit", "hex"],
    .ofRanges [('0', '9'), ('A', 'F'), ('a', 'f')]),
   (["idcontinue", "idc", "xidcontinue", "xidc"], .asciiWord),
   (["dash", "hyphen"], .single '-'),
   (["math"], .union mathSigns (.single '^')),
   (["bidimirrored", "bidim"],
     .union openers (.union closers (.ofRanges [('<', '<'), ('>', '>')]))),
   (["caseignorable", "ci"],
    .union modifierSigns (.ofRanges [('\x27', '\x27'), ('.', '.'), (':', ':')])),
   (["changeswhencasemapped", "cwcm"], letters),
   (["changeswhencasefolded", "cwcf", "changeswhenlowercased", "cwl"], upper),
   (["changeswhenuppercased", "cwu", "changeswhentitlecased", "cwt"], lower),
   (["diacritic", "dia"], modifierSigns),
   (["emoji", "emojicomponent", "ecomp"], .ofRanges [('#', '#'), ('*', '*'), ('0', '9')]),
   (["graphemebase", "grbase"], .range ' ' '~'),
   (["patternsyntax", "patsyn"],
    .ofRanges [('!', '/'), (':', '@'), ('[', '^'), ('\x60', '\x60'), ('\x7b', '~')]),
   (["patternwhitespace", "patws"], .asciiSpace),
   (["quotationmark", "qmark"], .ofRanges [('\"', '\"'), ('\x27', '\x27')]),
   (["sentenceterminal", "sterm"], .ofRanges [('!', '!'), ('.', '.'), ('?', '?')]),
   (["softdotted", "sd"], .range 'i' 'j'),
   (["terminalpunctuation", "term"],
    .ofRanges [('!', '!'), (',', ','), ('.', '.'), (':', ';'), ('?', '?')]),
   (["bidicontrol", "bidic", "defaultignorablecodepoint", "di", "deprecated", "dep",
     "emojimodifier", "emod", "emojimodifierbase", "ebase", "emojipresentation", "epres",
     "extendedpictographic",
     "extpict", "extender", "ext", "graphemeextend", "grext", "graphemelink", "grlink",
     "ideographic", "ideo", "idsbinaryoperator", "idsb", "idstrinaryoperator", "idst",
     "joincontrol", "joinc", "logicalorderexception", "loe", "noncharactercodepoint", "nchar",
     "prependedconcatenationmark", "pcm", "radical", "regionalindicator", "ri", "unifiedideograph",
     "uideo", "variationselector", "vs"], .nothing)]

/-- The scripts; in ASCII there are Latin letters and what all scripts share. -/
def scripts : List (List String × CharSet) :=
  [(["latin", "latn"], letters),
   (["common", "zyyy"], .inter ascii (.negated letters)),
   (["arabic", "arab", "armenian", "armn", "bengali", "beng", "bopomofo", "bopo",
     "cherokee", "cher", "coptic", "copt", "cyrillic", "cyrl", "devanagari", "deva", "ethiopic",
     "ethi", "georgian",
     "geor", "gothic", "goth", "greek", "grek", "gujarati", "gujr", "gurmukhi", "guru",
       "han", "hani",
     "hangul", "hang", "hebrew", "hebr", "hiragana", "hira", "inherited", "zinh", "kannada", "knda",
     "katakana", "kana", "khmer", "khmr", "lao", "laoo", "malayalam", "mlym", "mongolian", "mong",
     "myanmar", "mymr", "ogham", "ogam", "oriya", "orya", "runic", "runr", "sinhala", "sinh",
     "syriac", "syrc", "tamil", "taml", "telugu", "telu", "thaana", "thaa", "thai", "tibetan",
     "tibt"], .nothing)]

/-- Names are compared without case, blanks, hyphens and underscores, and without a leading `is`. -/
def plain (name : List Char) : List Char :=
  let cs := (name.map Char.toLower).filter fun c => c != ' ' && c != '-' && c != '_'
  match cs with
  | 'i' :: 's' :: rest => if rest.isEmpty || rest == ['c'] then cs else rest
  | cs => cs

def lookup (table : List (List String × CharSet)) (name : List Char) : Option CharSet :=
  (table.find? fun row => row.1.any fun n => n.toList == plain name).map (·.2)

def find? (name : List Char) : Option CharSet :=
  let isMark := fun c => c == '=' || c == ':'
  let key := name.takeWhile fun c => !isMark c
  match name.dropWhile fun c => !isMark c with
  | [] => lookup (general ++ binary ++ scripts) name
  | _ :: value =>
    let inverse := key.getLast? == some '!'
    let key := plain (if inverse then key.dropLast else key)
    let table :=
      if key == "gc".toList || key == "generalcategory".toList then general
      else if key == "sc".toList || key == "script".toList || key == "scx".toList
        || key == "scriptextensions".toList then scripts
      else []
    (lookup table value).map fun s => if inverse then .negated s else s

end WideColumn.Pattern.Category
