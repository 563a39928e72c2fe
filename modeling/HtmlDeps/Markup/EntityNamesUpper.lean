/-!
# Names of characters in HTML: an uppercase letter

Each entry is a name as it may follow an ampersand, with its semicolon where it needs one, and the
characters it stands for.
-/

namespace HtmlDeps.Entity

def namesUpperA : List (String × String) :=
  [
   ("AElig", "Æ"), ("AElig;", "Æ"), ("AMP", "&"), ("AMP;", "&"), ("Aacute", "Á"),
   ("Aacute;", "Á"), ("Abreve;", "Ă"), ("Acirc", "Â"), ("Acirc;", "Â"), ("Acy;", "А"),
   ("Afr;", "𝔄"), ("Agrave", "À"), ("Agrave;", "À"), ("Alpha;", "Α"), ("Amacr;", "Ā"),
   ("And;", "⩓"), ("Aogon;", "Ą"), ("Aopf;", "𝔸"), ("ApplyFunction;", "\u2061"), ("Aring", "Å"),
   ("Aring;", "Å"), ("Ascr;", "𝒜"), ("Assign;", "≔"), ("Atilde", "Ã"), ("Atilde;", "Ã"),
   ("Auml", "Ä"), ("Auml;", "Ä")
  ]

def namesUpperB : List (String × String) :=
  [
   ("Backslash;", "∖"), ("Barv;", "⫧"), ("Barwed;", "⌆"), ("Bcy;", "Б"), ("Because;", "∵"),
   ("Bernoullis;", "ℬ"), ("Beta;", "Β"), ("Bfr;", "𝔅"), ("Bopf;", "𝔹"), ("Breve;", "˘"),
   ("Bscr;", "ℬ"), ("Bumpeq;", "≎")
  ]

def namesUpperC : List (String × String) :=
  [
   ("CHcy;", "Ч"), ("COPY", "©"), ("COPY;", "©"), ("Cacute;", "Ć"), ("Cap;", "⋒"),
   ("CapitalDifferentialD;", "ⅅ"), ("Cayleys;", "ℭ"), ("Ccaron;", "Č"), ("Ccedil", "Ç"),
   ("Ccedil;", "Ç"), ("Ccirc;", "Ĉ"), ("Cconint;", "∰"), ("Cdot;", "Ċ"), ("Cedilla;", "¸"),
   ("CenterDot;", "·"), ("Cfr;", "ℭ"), ("Chi;", "Χ"), ("CircleDot;", "⊙"), ("CircleMinus;", "⊖"),
   ("CirclePlus;", "⊕"), ("CircleTimes;", "⊗"), ("ClockwiseContourIntegral;", "∲"),
   ("CloseCurlyDoubleQuote;", "”"), ("CloseCurlyQuote;", "’"), ("Colon;", "∷"), ("Colone;", "⩴"),
   ("Congruent;", "≡"), ("Conint;", "∯"), ("ContourIntegral;", "∮"), ("Copf;", "ℂ"),
   ("Coproduct;", "∐"), ("CounterClockwiseContourIntegral;", "∳"), ("Cross;", "⨯"),
   ("Cscr;", "𝒞"), ("Cup;", "⋓"), ("CupCap;", "≍")
  ]

def namesUpperD : List (String × String) :=
  [
   ("DD;", "ⅅ"), ("DDotrahd;", "⤑"), ("DJcy;", "Ђ"), ("DScy;", "Ѕ"), ("DZcy;", "Џ"),
   ("Dagger;", "‡"), ("Darr;", "↡"), ("Dashv;", "⫤"), ("Dcaron;", "Ď"), ("Dcy;", "Д"),
   ("Del;", "∇"), ("Delta;", "Δ"), ("Dfr;", "𝔇"), ("DiacriticalAcute;", "´"),
   ("DiacriticalDot;", "˙"), ("DiacriticalDoubleAcute;", "˝"), ("DiacriticalGrave;", "`"),
   ("DiacriticalTilde;", "˜"), ("Diamond;", "⋄"), ("DifferentialD;", "ⅆ"), ("Dopf;", "𝔻"),
   ("Dot;", "¨"), ("DotDot;", "\u20dc"), ("DotEqual;", "≐"), ("DoubleContourIntegral;", "∯"),
   ("DoubleDot;", "¨"), ("DoubleDownArrow;", "⇓"), ("DoubleLeftArrow;", "⇐"),
   ("DoubleLeftRightArrow;", "⇔"), ("DoubleLeftTee;", "⫤"), ("DoubleLongLeftArrow;", "⟸"),
   ("DoubleLongLeftRightArrow;", "⟺"), ("DoubleLongRightArrow;", "⟹"),
   ("DoubleRightArrow;", "⇒"), ("DoubleRightTee;", "⊨"), ("DoubleUpArrow;", "⇑"),
   ("DoubleUpDownArrow;", "⇕"), ("DoubleVerticalBar;", "∥"), ("DownArrow;", "↓"),
   ("DownArrowBar;", "⤓"), ("DownArrowUpArrow;", "⇵"), ("DownBreve;", "\u0311"),
   ("DownLeftRightVector;", "⥐"), ("DownLeftTeeVector;", "⥞"), ("DownLeftVector;", "↽"),
   ("DownLeftVectorBar;", "⥖"), ("DownRightTeeVector;", "⥟"), ("DownRightVector;", "⇁"),
   ("DownRightVectorBar;", "⥗"), ("DownTee;", "⊤"), ("DownTeeArrow;", "↧"), ("Downarrow;", "⇓"),
   ("Dscr;", "𝒟"), ("Dstrok;", "Đ")
  ]

def namesUpperE : List (String × String) :=
  [
   ("ENG;", "Ŋ"), ("ETH", "Ð"), ("ETH;", "Ð"), ("Eacute", "É"), ("Eacute;", "É"),
   ("Ecaron;", "Ě"), ("Ecirc", "Ê"), ("Ecirc;", "Ê"), ("Ecy;", "Э"), ("Edot;", "Ė"),
   ("Efr;", "𝔈"), ("Egrave", "È"), ("Egrave;", "È"), ("Element;", "∈"), ("Emacr;", "Ē"),
   ("EmptySmallSquare;", "◻"), ("EmptyVerySmallSquare;", "▫"), ("Eogon;", "Ę"), ("Eopf;", "𝔼"),
   ("Epsilon;", "Ε"), ("Equal;", "⩵"), ("EqualTilde;", "≂"), ("Equilibrium;", "⇌"),
   ("Escr;", "ℰ"), ("Esim;", "⩳"), ("Eta;", "Η"), ("Euml", "Ë"), ("Euml;", "Ë"),
   ("Exists;", "∃"), ("ExponentialE;", "ⅇ")
  ]

def namesUpperF : List (String × String) :=
  [
   ("Fcy;", "Ф"), ("Ffr;", "𝔉"), ("FilledSmallSquare;", "◼"), ("FilledVerySmallSquare;", "▪"),
   ("Fopf;", "𝔽"), ("ForAll;", "∀"), ("Fouriertrf;", "ℱ"), ("Fscr;", "ℱ")
  ]

def namesUpperG : List (String × String) :=
  [
   ("GJcy;", "Ѓ"), ("GT", ">"), ("GT;", ">"), ("Gamma;", "Γ"), ("Gammad;", "Ϝ"),
   ("Gbreve;", "Ğ"), ("Gcedil;", "Ģ"), ("Gcirc;", "Ĝ"), ("Gcy;", "Г"), ("Gdot;", "Ġ"),
   ("Gfr;", "𝔊"), ("Gg;", "⋙"), ("Gopf;", "𝔾"), ("GreaterEqual;", "≥"),
   ("GreaterEqualLess;", "⋛"), ("GreaterFullEqual;", "≧"), ("GreaterGreater;", "⪢"),
   ("GreaterLess;", "≷"), ("GreaterSlantEqual;", "⩾"), ("GreaterTilde;", "≳"), ("Gscr;", "𝒢"),
   ("Gt;", "≫")
  ]

def namesUpperH : List (String × String) :=
  [
   ("HARDcy;", "Ъ"), ("Hacek;", "ˇ"), ("Hat;", "^"), ("Hcirc;", "Ĥ"), ("Hfr;", "ℌ"),
   ("HilbertSpace;", "ℋ"), ("Hopf;", "ℍ"), ("HorizontalLine;", "─"), ("Hscr;", "ℋ"),
   ("Hstrok;", "Ħ"), ("HumpDownHump;", "≎"), ("HumpEqual;", "≏")
  ]

def namesUpperI : List (String × String) :=
  [
   ("IEcy;", "Е"), ("IJlig;", "Ĳ"), ("IOcy;", "Ё"), ("Iacute", "Í"), ("Iacute;", "Í"),
   ("Icirc", "Î"), ("Icirc;", "Î"), ("Icy;", "И"), ("Idot;", "İ"), ("Ifr;", "ℑ"),
   ("Igrave", "Ì"), ("Igrave;", "Ì"), ("Im;", "ℑ"), ("Imacr;", "Ī"), ("ImaginaryI;", "ⅈ"),
   ("Implies;", "⇒"), ("Int;", "∬"), ("Integral;", "∫"), ("Intersection;", "⋂"),
   ("InvisibleComma;", "\u2063"), ("InvisibleTimes;", "\u2062"), ("Iogon;", "Į"), ("Iopf;", "𝕀"),
   ("Iota;", "Ι"), ("Iscr;", "ℐ"), ("Itilde;", "Ĩ"), ("Iukcy;", "І"), ("Iuml", "Ï"),
   ("Iuml;", "Ï")
  ]

def namesUpperJ : List (String × String) :=
  [
   ("Jcirc;", "Ĵ"), ("Jcy;", "Й"), ("Jfr;", "𝔍"), ("Jopf;", "𝕁"), ("Jscr;", "𝒥"),
   ("Jsercy;", "Ј"), ("Jukcy;", "Є")
  ]

def namesUpperK : List (String × String) :=
  [
   ("KHcy;", "Х"), ("KJcy;", "Ќ"), ("Kappa;", "Κ"), ("Kcedil;", "Ķ"), ("Kcy;", "К"),
   ("Kfr;", "𝔎"), ("Kopf;", "𝕂"), ("Kscr;", "𝒦")
  ]

def namesUpperL : List (String × String) :=
  [
   ("LJcy;", "Љ"), ("LT", "<"), ("LT;", "<"), ("Lacute;", "Ĺ"), ("Lambda;", "Λ"), ("Lang;", "⟪"),
   ("Laplacetrf;", "ℒ"), ("Larr;", "↞"), ("Lcaron;", "Ľ"), ("Lcedil;", "Ļ"), ("Lcy;", "Л"),
   ("LeftAngleBracket;", "⟨"), ("LeftArrow;", "←"), ("LeftArrowBar;", "⇤"),
   ("LeftArrowRightArrow;", "⇆"), ("LeftCeiling;", "⌈"), ("LeftDoubleBracket;", "⟦"),
   ("LeftDownTeeVector;", "⥡"), ("LeftDownVector;", "⇃"), ("LeftDownVectorBar;", "⥙"),
   ("LeftFloor;", "⌊"), ("LeftRightArrow;", "↔"), ("LeftRightVector;", "⥎"), ("LeftTee;", "⊣"),
   ("LeftTeeArrow;", "↤"), ("LeftTeeVector;", "⥚"), ("LeftTriangle;", "⊲"),
   ("LeftTriangleBar;", "⧏"), ("LeftTriangleEqual;", "⊴"), ("LeftUpDownVector;", "⥑"),
   ("LeftUpTeeVector;", "⥠"), ("LeftUpVector;", "↿"), ("LeftUpVectorBar;", "⥘"),
   ("LeftVector;", "↼"), ("LeftVectorBar;", "⥒"), ("Leftarrow;", "⇐"), ("Leftrightarrow;", "⇔"),
   ("LessEqualGreater;", "⋚"), ("LessFullEqual;", "≦"), ("LessGreater;", "≶"),
   ("LessLess;", "⪡"), ("LessSlantEqual;", "⩽"), ("LessTilde;", "≲"), ("Lfr;", "𝔏"),
   ("Ll;", "⋘"), ("Lleftarrow;", "⇚"), ("Lmidot;", "Ŀ"), ("LongLeftArrow;", "⟵"),
   ("LongLeftRightArrow;", "⟷"), ("LongRightArrow;", "⟶"), ("Longleftarrow;", "⟸"),
   ("Longleftrightarrow;", "⟺"), ("Longrightarrow;", "⟹"), ("Lopf;", "𝕃"),
   ("LowerLeftArrow;", "↙"), ("LowerRightArrow;", "↘"), ("Lscr;", "ℒ"), ("Lsh;", "↰"),
   ("Lstrok;", "Ł"), ("Lt;", "≪")
  ]

def namesUpperM : List (String × String) :=
  [
   ("Map;", "⤅"), ("Mcy;", "М"), ("MediumSpace;", "\u205f"), ("Mellintrf;", "ℳ"), ("Mfr;", "𝔐"),
   ("MinusPlus;", "∓"), ("Mopf;", "𝕄"), ("Mscr;", "ℳ"), ("Mu;", "Μ")
  ]

def namesUpperN : List (String × String) :=
  [
   ("NJcy;", "Њ"), ("Nacute;", "Ń"), ("Ncaron;", "Ň"), ("Ncedil;", "Ņ"), ("Ncy;", "Н"),
   ("NegativeMediumSpace;", "\u200b"), ("NegativeThickSpace;", "\u200b"),
   ("NegativeThinSpace;", "\u200b"), ("NegativeVeryThinSpace;", "\u200b"),
   ("NestedGreaterGreater;", "≫"), ("NestedLessLess;", "≪"), ("NewLine;", "\n"), ("Nfr;", "𝔑"),
   ("NoBreak;", "\u2060"), ("NonBreakingSpace;", "\u00a0"), ("Nopf;", "ℕ"), ("Not;", "⫬"),
   ("NotCongruent;", "≢"), ("NotCupCap;", "≭"), ("NotDoubleVerticalBar;", "∦"),
   ("NotElement;", "∉"), ("NotEqual;", "≠"), ("NotEqualTilde;", "≂\u0338"), ("NotExists;", "∄"),
   ("NotGreater;", "≯"), ("NotGreaterEqual;", "≱"), ("NotGreaterFullEqual;", "≧\u0338"),
   ("NotGreaterGreater;", "≫\u0338"), ("NotGreaterLess;", "≹"),
   ("NotGreaterSlantEqual;", "⩾\u0338"), ("NotGreaterTilde;", "≵"),
   ("NotHumpDownHump;", "≎\u0338"), ("NotHumpEqual;", "≏\u0338"), ("NotLeftTriangle;", "⋪"),
   ("NotLeftTriangleBar;", "⧏\u0338"), ("NotLeftTriangleEqual;", "⋬"), ("NotLess;", "≮"),
   ("NotLessEqual;", "≰"), ("NotLessGreater;", "≸"), ("NotLessLess;", "≪\u0338"),
   ("NotLessSlantEqual;", "⩽\u0338"), ("NotLessTilde;", "≴"),
   ("NotNestedGreaterGreater;", "⪢\u0338"), ("NotNestedLessLess;", "⪡\u0338"),
   ("NotPrecedes;", "⊀"), ("NotPrecedesEqual;", "⪯\u0338"), ("NotPrecedesSlantEqual;", "⋠"),
   ("NotReverseElement;", "∌"), ("NotRightTriangle;", "⋫"), ("NotRightTriangleBar;", "⧐\u0338"),
   ("NotRightTriangleEqual;", "⋭"), ("NotSquareSubset;", "⊏\u0338"),
   ("NotSquareSubsetEqual;", "⋢"), ("NotSquareSuperset;", "⊐\u0338"),
   ("NotSquareSupersetEqual;", "⋣"), ("NotSubset;", "⊂\u20d2"), ("NotSubsetEqual;", "⊈"),
   ("NotSucceeds;", "⊁"), ("NotSucceedsEqual;", "⪰\u0338"), ("NotSucceedsSlantEqual;", "⋡"),
   ("NotSucceedsTilde;", "≿\u0338"), ("NotSuperset;", "⊃\u20d2"), ("NotSupersetEqual;", "⊉"),
   ("NotTilde;", "≁"), ("NotTildeEqual;", "≄"), ("NotTildeFullEqual;", "≇"),
   ("NotTildeTilde;", "≉"), ("NotVerticalBar;", "∤"), ("Nscr;", "𝒩"), ("Ntilde", "Ñ"),
   ("Ntilde;", "Ñ"), ("Nu;", "Ν")
  ]

def namesUpperO : List (String × String) :=
  [
   ("OElig;", "Œ"), ("Oacute", "Ó"), ("Oacute;", "Ó"), ("Ocirc", "Ô"), ("Ocirc;", "Ô"),
   ("Ocy;", "О"), ("Odblac;", "Ő"), ("Ofr;", "𝔒"), ("Ograve", "Ò"), ("Ograve;", "Ò"),
   ("Omacr;", "Ō"), ("Omega;", "Ω"), ("Omicron;", "Ο"), ("Oopf;", "𝕆"),
   ("OpenCurlyDoubleQuote;", "“"), ("OpenCurlyQuote;", "‘"), ("Or;", "⩔"), ("Oscr;", "𝒪"),
   ("Oslash", "Ø"), ("Oslash;", "Ø"), ("Otilde", "Õ"), ("Otilde;", "Õ"), ("Otimes;", "⨷"),
   ("Ouml", "Ö"), ("Ouml;", "Ö"), ("OverBar;", "‾"), ("OverBrace;", "⏞"), ("OverBracket;", "⎴"),
   ("OverParenthesis;", "⏜")
  ]

def namesUpperP : List (String × String) :=
  [
   ("PartialD;", "∂"), ("Pcy;", "П"), ("Pfr;", "𝔓"), ("Phi;", "Φ"), ("Pi;", "Π"),
   ("PlusMinus;", "±"), ("Poincareplane;", "ℌ"), ("Popf;", "ℙ"), ("Pr;", "⪻"),
   ("Precedes;", "≺"), ("PrecedesEqual;", "⪯"), ("PrecedesSlantEqual;", "≼"),
   ("PrecedesTilde;", "≾"), ("Prime;", "″"), ("Product;", "∏"), ("Proportion;", "∷"),
   ("Proportional;", "∝"), ("Pscr;", "𝒫"), ("Psi;", "Ψ")
  ]

def namesUpperQ : List (String × String) :=
  [
   ("QUOT", "\""), ("QUOT;", "\""), ("Qfr;", "𝔔"), ("Qopf;", "ℚ"), ("Qscr;", "𝒬")
  ]

def namesUpperR : List (String × String) :=
  [
   ("RBarr;", "⤐"), ("REG", "®"), ("REG;", "®"), ("Racute;", "Ŕ"), ("Rang;", "⟫"),
   ("Rarr;", "↠"), ("Rarrtl;", "⤖"), ("Rcaron;", "Ř"), ("Rcedil;", "Ŗ"), ("Rcy;", "Р"),
   ("Re;", "ℜ"), ("ReverseElement;", "∋"), ("ReverseEquilibrium;", "⇋"),
   ("ReverseUpEquilibrium;", "⥯"), ("Rfr;", "ℜ"), ("Rho;", "Ρ"), ("RightAngleBracket;", "⟩"),
   ("RightArrow;", "→"), ("RightArrowBar;", "⇥"), ("RightArrowLeftArrow;", "⇄"),
   ("RightCeiling;", "⌉"), ("RightDoubleBracket;", "⟧"), ("RightDownTeeVector;", "⥝"),
   ("RightDownVector;", "⇂"), ("RightDownVectorBar;", "⥕"), ("RightFloor;", "⌋"),
   ("RightTee;", "⊢"), ("RightTeeArrow;", "↦"), ("RightTeeVector;", "⥛"),
   ("RightTriangle;", "⊳"), ("RightTriangleBar;", "⧐"), ("RightTriangleEqual;", "⊵"),
   ("RightUpDownVector;", "⥏"), ("RightUpTeeVector;", "⥜"), ("RightUpVector;", "↾"),
   ("RightUpVectorBar;", "⥔"), ("RightVector;", "⇀"), ("RightVectorBar;", "⥓"),
   ("Rightarrow;", "⇒"), ("Ropf;", "ℝ"), ("RoundImplies;", "⥰"), ("Rrightarrow;", "⇛"),
   ("Rscr;", "ℛ"), ("Rsh;", "↱"), ("RuleDelayed;", "⧴")
  ]

def namesUpperS : List (String × String) :=
  [
   ("SHCHcy;", "Щ"), ("SHcy;", "Ш"), ("SOFTcy;", "Ь"), ("Sacute;", "Ś"), ("Sc;", "⪼"),
   ("Scaron;", "Š"), ("Scedil;", "Ş"), ("Scirc;", "Ŝ"), ("Scy;", "С"), ("Sfr;", "𝔖"),
   ("ShortDownArrow;", "↓"), ("ShortLeftArrow;", "←"), ("ShortRightArrow;", "→"),
   ("ShortUpArrow;", "↑"), ("Sigma;", "Σ"), ("SmallCircle;", "∘"), ("Sopf;", "𝕊"),
   ("Sqrt;", "√"), ("Square;", "□"), ("SquareIntersection;", "⊓"), ("SquareSubset;", "⊏"),
   ("SquareSubsetEqual;", "⊑"), ("SquareSuperset;", "⊐"), ("SquareSupersetEqual;", "⊒"),
   ("SquareUnion;", "⊔"), ("Sscr;", "𝒮"), ("Star;", "⋆"), ("Sub;", "⋐"), ("Subset;", "⋐"),
   ("SubsetEqual;", "⊆"), ("Succeeds;", "≻"), ("SucceedsEqual;", "⪰"),
   ("SucceedsSlantEqual;", "≽"), ("SucceedsTilde;", "≿"), ("SuchThat;", "∋"), ("Sum;", "∑"),
   ("Sup;", "⋑"), ("Superset;", "⊃"), ("SupersetEqual;", "⊇"), ("Supset;", "⋑")
  ]

def namesUpperT : List (String × String) :=
  [
   ("THORN", "Þ"), ("THORN;", "Þ"), ("TRADE;", "™"), ("TSHcy;", "Ћ"), ("TScy;", "Ц"),
   ("Tab;", "\t"), ("Tau;", "Τ"), ("Tcaron;", "Ť"), ("Tcedil;", "Ţ"), ("Tcy;", "Т"),
   ("Tfr;", "𝔗"), ("Therefore;", "∴"), ("Theta;", "Θ"), ("ThickSpace;", "\u205f\u200a"),
   ("ThinSpace;", "\u2009"), ("Tilde;", "∼"), ("TildeEqual;", "≃"), ("TildeFullEqual;", "≅"),
   ("TildeTilde;", "≈"), ("Topf;", "𝕋"), ("TripleDot;", "\u20db"), ("Tscr;", "𝒯"),
   ("Tstrok;", "Ŧ")
  ]

def namesUpperU : List (String × String) :=
  [
   ("Uacute", "Ú"), ("Uacute;", "Ú"), ("Uarr;", "↟"), ("Uarrocir;", "⥉"), ("Ubrcy;", "Ў"),
   ("Ubreve;", "Ŭ"), ("Ucirc", "Û"), ("Ucirc;", "Û"), ("Ucy;", "У"), ("Udblac;", "Ű"),
   ("Ufr;", "𝔘"), ("Ugrave", "Ù"), ("Ugrave;", "Ù"), ("Umacr;", "Ū"), ("UnderBar;", "_"),
   ("UnderBrace;", "⏟"), ("UnderBracket;", "⎵"), ("UnderParenthesis;", "⏝"), ("Union;", "⋃"),
   ("UnionPlus;", "⊎"), ("Uogon;", "Ų"), ("Uopf;", "𝕌"), ("UpArrow;", "↑"), ("UpArrowBar;", "⤒"),
   ("UpArrowDownArrow;", "⇅"), ("UpDownArrow;", "↕"), ("UpEquilibrium;", "⥮"), ("UpTee;", "⊥"),
   ("UpTeeArrow;", "↥"), ("Uparrow;", "⇑"), ("Updownarrow;", "⇕"), ("UpperLeftArrow;", "↖"),
   ("UpperRightArrow;", "↗"), ("Upsi;", "ϒ"), ("Upsilon;", "Υ"), ("Uring;", "Ů"), ("Uscr;", "𝒰"),
   ("Utilde;", "Ũ"), ("Uuml", "Ü"), ("Uuml;", "Ü")
  ]

def namesUpperV : List (String × String) :=
  [
   ("VDash;", "⊫"), ("Vbar;", "⫫"), ("Vcy;", "В"), ("Vdash;", "⊩"), ("Vdashl;", "⫦"),
   ("Vee;", "⋁"), ("Verbar;", "‖"), ("Vert;", "‖"), ("VerticalBar;", "∣"),
   ("VerticalLine;", "|"), ("VerticalSeparator;", "❘"), ("VerticalTilde;", "≀"),
   ("VeryThinSpace;", "\u200a"), ("Vfr;", "𝔙"), ("Vopf;", "𝕍"), ("Vscr;", "𝒱"), ("Vvdash;", "⊪")
  ]

def namesUpperW : List (String × String) :=
  [
   ("Wcirc;", "Ŵ"), ("Wedge;", "⋀"), ("Wfr;", "𝔚"), ("Wopf;", "𝕎"), ("Wscr;", "𝒲")
  ]

def namesUpperX : List (String × String) :=
  [
   ("Xfr;", "𝔛"), ("Xi;", "Ξ"), ("Xopf;", "𝕏"), ("Xscr;", "𝒳")
  ]

def namesUpperY : List (String × String) :=
  [
   ("YAcy;", "Я"), ("YIcy;", "Ї"), ("YUcy;", "Ю"), ("Yacute", "Ý"), ("Yacute;", "Ý"),
   ("Ycirc;", "Ŷ"), ("Ycy;", "Ы"), ("Yfr;", "𝔜"), ("Yopf;", "𝕐"), ("Yscr;", "𝒴"), ("Yuml;", "Ÿ")
  ]

def namesUpperZ : List (String × String) :=
  [
   ("ZHcy;", "Ж"), ("Zacute;", "Ź"), ("Zcaron;", "Ž"), ("Zcy;", "З"), ("Zdot;", "Ż"),
   ("ZeroWidthSpace;", "\u200b"), ("Zeta;", "Ζ"), ("Zfr;", "ℨ"), ("Zopf;", "ℤ"), ("Zscr;", "𝒵")
  ]

end HtmlDeps.Entity
