/-!
# Names of characters in HTML: one of the letters m to z

Each entry is a name as it may follow an ampersand, with its semicolon where it needs one, and the
characters it stands for.
-/

namespace HtmlDeps.Entity

def namesLowerM : List (String × String) :=
  [
   ("mDDot;", "∺"), ("macr", "¯"), ("macr;", "¯"), ("male;", "♂"), ("malt;", "✠"),
   ("maltese;", "✠"), ("map;", "↦"), ("mapsto;", "↦"), ("mapstodown;", "↧"),
   ("mapstoleft;", "↤"), ("mapstoup;", "↥"), ("marker;", "▮"), ("mcomma;", "⨩"), ("mcy;", "м"),
   ("mdash;", "—"), ("measuredangle;", "∡"), ("mfr;", "𝔪"), ("mho;", "℧"), ("micro", "µ"),
   ("micro;", "µ"), ("mid;", "∣"), ("midast;", "*"), ("midcir;", "⫰"), ("middot", "·"),
   ("middot;", "·"), ("minus;", "−"), ("minusb;", "⊟"), ("minusd;", "∸"), ("minusdu;", "⨪"),
   ("mlcp;", "⫛"), ("mldr;", "…"), ("mnplus;", "∓"), ("models;", "⊧"), ("mopf;", "𝕞"),
   ("mp;", "∓"), ("mscr;", "𝓂"), ("mstpos;", "∾"), ("mu;", "μ"), ("multimap;", "⊸"),
   ("mumap;", "⊸")
  ]

def namesLowerN : List (String × String) :=
  [
   ("nGg;", "⋙\u0338"), ("nGt;", "≫\u20d2"), ("nGtv;", "≫\u0338"), ("nLeftarrow;", "⇍"),
   ("nLeftrightarrow;", "⇎"), ("nLl;", "⋘\u0338"), ("nLt;", "≪\u20d2"), ("nLtv;", "≪\u0338"),
   ("nRightarrow;", "⇏"), ("nVDash;", "⊯"), ("nVdash;", "⊮"), ("nabla;", "∇"), ("nacute;", "ń"),
   ("nang;", "∠\u20d2"), ("nap;", "≉"), ("napE;", "⩰\u0338"), ("napid;", "≋\u0338"),
   ("napos;", "ŉ"), ("napprox;", "≉"), ("natur;", "♮"), ("natural;", "♮"), ("naturals;", "ℕ"),
   ("nbsp", "\u00a0"), ("nbsp;", "\u00a0"), ("nbump;", "≎\u0338"), ("nbumpe;", "≏\u0338"),
   ("ncap;", "⩃"), ("ncaron;", "ň"), ("ncedil;", "ņ"), ("ncong;", "≇"), ("ncongdot;", "⩭\u0338"),
   ("ncup;", "⩂"), ("ncy;", "н"), ("ndash;", "–"), ("ne;", "≠"), ("neArr;", "⇗"),
   ("nearhk;", "⤤"), ("nearr;", "↗"), ("nearrow;", "↗"), ("nedot;", "≐\u0338"), ("nequiv;", "≢"),
   ("nesear;", "⤨"), ("nesim;", "≂\u0338"), ("nexist;", "∄"), ("nexists;", "∄"), ("nfr;", "𝔫"),
   ("ngE;", "≧\u0338"), ("nge;", "≱"), ("ngeq;", "≱"), ("ngeqq;", "≧\u0338"),
   ("ngeqslant;", "⩾\u0338"), ("nges;", "⩾\u0338"), ("ngsim;", "≵"), ("ngt;", "≯"),
   ("ngtr;", "≯"), ("nhArr;", "⇎"), ("nharr;", "↮"), ("nhpar;", "⫲"), ("ni;", "∋"),
   ("nis;", "⋼"), ("nisd;", "⋺"), ("niv;", "∋"), ("njcy;", "њ"), ("nlArr;", "⇍"),
   ("nlE;", "≦\u0338"), ("nlarr;", "↚"), ("nldr;", "‥"), ("nle;", "≰"), ("nleftarrow;", "↚"),
   ("nleftrightarrow;", "↮"), ("nleq;", "≰"), ("nleqq;", "≦\u0338"), ("nleqslant;", "⩽\u0338"),
   ("nles;", "⩽\u0338"), ("nless;", "≮"), ("nlsim;", "≴"), ("nlt;", "≮"), ("nltri;", "⋪"),
   ("nltrie;", "⋬"), ("nmid;", "∤"), ("nopf;", "𝕟"), ("not", "¬"), ("not;", "¬"),
   ("notin;", "∉"), ("notinE;", "⋹\u0338"), ("notindot;", "⋵\u0338"), ("notinva;", "∉"),
   ("notinvb;", "⋷"), ("notinvc;", "⋶"), ("notni;", "∌"), ("notniva;", "∌"), ("notnivb;", "⋾"),
   ("notnivc;", "⋽"), ("npar;", "∦"), ("nparallel;", "∦"), ("nparsl;", "⫽\u20e5"),
   ("npart;", "∂\u0338"), ("npolint;", "⨔"), ("npr;", "⊀"), ("nprcue;", "⋠"),
   ("npre;", "⪯\u0338"), ("nprec;", "⊀"), ("npreceq;", "⪯\u0338"), ("nrArr;", "⇏"),
   ("nrarr;", "↛"), ("nrarrc;", "⤳\u0338"), ("nrarrw;", "↝\u0338"), ("nrightarrow;", "↛"),
   ("nrtri;", "⋫"), ("nrtrie;", "⋭"), ("nsc;", "⊁"), ("nsccue;", "⋡"), ("nsce;", "⪰\u0338"),
   ("nscr;", "𝓃"), ("nshortmid;", "∤"), ("nshortparallel;", "∦"), ("nsim;", "≁"),
   ("nsime;", "≄"), ("nsimeq;", "≄"), ("nsmid;", "∤"), ("nspar;", "∦"), ("nsqsube;", "⋢"),
   ("nsqsupe;", "⋣"), ("nsub;", "⊄"), ("nsubE;", "⫅\u0338"), ("nsube;", "⊈"),
   ("nsubset;", "⊂\u20d2"), ("nsubseteq;", "⊈"), ("nsubseteqq;", "⫅\u0338"), ("nsucc;", "⊁"),
   ("nsucceq;", "⪰\u0338"), ("nsup;", "⊅"), ("nsupE;", "⫆\u0338"), ("nsupe;", "⊉"),
   ("nsupset;", "⊃\u20d2"), ("nsupseteq;", "⊉"), ("nsupseteqq;", "⫆\u0338"), ("ntgl;", "≹"),
   ("ntilde", "ñ"), ("ntilde;", "ñ"), ("ntlg;", "≸"), ("ntriangleleft;", "⋪"),
   ("ntrianglelefteq;", "⋬"), ("ntriangleright;", "⋫"), ("ntrianglerighteq;", "⋭"), ("nu;", "ν"),
   ("num;", "#"), ("numero;", "№"), ("numsp;", "\u2007"), ("nvDash;", "⊭"), ("nvHarr;", "⤄"),
   ("nvap;", "≍\u20d2"), ("nvdash;", "⊬"), ("nvge;", "≥\u20d2"), ("nvgt;", ">\u20d2"),
   ("nvinfin;", "⧞"), ("nvlArr;", "⤂"), ("nvle;", "≤\u20d2"), ("nvlt;", "<\u20d2"),
   ("nvltrie;", "⊴\u20d2"), ("nvrArr;", "⤃"), ("nvrtrie;", "⊵\u20d2"), ("nvsim;", "∼\u20d2"),
   ("nwArr;", "⇖"), ("nwarhk;", "⤣"), ("nwarr;", "↖"), ("nwarrow;", "↖"), ("nwnear;", "⤧")
  ]

def namesLowerO : List (String × String) :=
  [
   ("oS;", "Ⓢ"), ("oacute", "ó"), ("oacute;", "ó"), ("oast;", "⊛"), ("ocir;", "⊚"),
   ("ocirc", "ô"), ("ocirc;", "ô"), ("ocy;", "о"), ("odash;", "⊝"), ("odblac;", "ő"),
   ("odiv;", "⨸"), ("odot;", "⊙"), ("odsold;", "⦼"), ("oelig;", "œ"), ("ofcir;", "⦿"),
   ("ofr;", "𝔬"), ("ogon;", "˛"), ("ograve", "ò"), ("ograve;", "ò"), ("ogt;", "⧁"),
   ("ohbar;", "⦵"), ("ohm;", "Ω"), ("oint;", "∮"), ("olarr;", "↺"), ("olcir;", "⦾"),
   ("olcross;", "⦻"), ("oline;", "‾"), ("olt;", "⧀"), ("omacr;", "ō"), ("omega;", "ω"),
   ("omicron;", "ο"), ("omid;", "⦶"), ("ominus;", "⊖"), ("oopf;", "𝕠"), ("opar;", "⦷"),
   ("operp;", "⦹"), ("oplus;", "⊕"), ("or;", "∨"), ("orarr;", "↻"), ("ord;", "⩝"),
   ("order;", "ℴ"), ("orderof;", "ℴ"), ("ordf", "ª"), ("ordf;", "ª"), ("ordm", "º"),
   ("ordm;", "º"), ("origof;", "⊶"), ("oror;", "⩖"), ("orslope;", "⩗"), ("orv;", "⩛"),
   ("oscr;", "ℴ"), ("oslash", "ø"), ("oslash;", "ø"), ("osol;", "⊘"), ("otilde", "õ"),
   ("otilde;", "õ"), ("otimes;", "⊗"), ("otimesas;", "⨶"), ("ouml", "ö"), ("ouml;", "ö"),
   ("ovbar;", "⌽")
  ]

def namesLowerP : List (String × String) :=
  [
   ("par;", "∥"), ("para", "¶"), ("para;", "¶"), ("parallel;", "∥"), ("parsim;", "⫳"),
   ("parsl;", "⫽"), ("part;", "∂"), ("pcy;", "п"), ("percnt;", "%"), ("period;", "."),
   ("permil;", "‰"), ("perp;", "⊥"), ("pertenk;", "‱"), ("pfr;", "𝔭"), ("phi;", "φ"),
   ("phiv;", "ϕ"), ("phmmat;", "ℳ"), ("phone;", "☎"), ("pi;", "π"), ("pitchfork;", "⋔"),
   ("piv;", "ϖ"), ("planck;", "ℏ"), ("planckh;", "ℎ"), ("plankv;", "ℏ"), ("plus;", "+"),
   ("plusacir;", "⨣"), ("plusb;", "⊞"), ("pluscir;", "⨢"), ("plusdo;", "∔"), ("plusdu;", "⨥"),
   ("pluse;", "⩲"), ("plusmn", "±"), ("plusmn;", "±"), ("plussim;", "⨦"), ("plustwo;", "⨧"),
   ("pm;", "±"), ("pointint;", "⨕"), ("popf;", "𝕡"), ("pound", "£"), ("pound;", "£"),
   ("pr;", "≺"), ("prE;", "⪳"), ("prap;", "⪷"), ("prcue;", "≼"), ("pre;", "⪯"), ("prec;", "≺"),
   ("precapprox;", "⪷"), ("preccurlyeq;", "≼"), ("preceq;", "⪯"), ("precnapprox;", "⪹"),
   ("precneqq;", "⪵"), ("precnsim;", "⋨"), ("precsim;", "≾"), ("prime;", "′"), ("primes;", "ℙ"),
   ("prnE;", "⪵"), ("prnap;", "⪹"), ("prnsim;", "⋨"), ("prod;", "∏"), ("profalar;", "⌮"),
   ("profline;", "⌒"), ("profsurf;", "⌓"), ("prop;", "∝"), ("propto;", "∝"), ("prsim;", "≾"),
   ("prurel;", "⊰"), ("pscr;", "𝓅"), ("psi;", "ψ"), ("puncsp;", "\u2008")
  ]

def namesLowerQ : List (String × String) :=
  [
   ("qfr;", "𝔮"), ("qint;", "⨌"), ("qopf;", "𝕢"), ("qprime;", "⁗"), ("qscr;", "𝓆"),
   ("quaternions;", "ℍ"), ("quatint;", "⨖"), ("quest;", "?"), ("questeq;", "≟"), ("quot", "\""),
   ("quot;", "\"")
  ]

def namesLowerR : List (String × String) :=
  [
   ("rAarr;", "⇛"), ("rArr;", "⇒"), ("rAtail;", "⤜"), ("rBarr;", "⤏"), ("rHar;", "⥤"),
   ("race;", "∽\u0331"), ("racute;", "ŕ"), ("radic;", "√"), ("raemptyv;", "⦳"), ("rang;", "⟩"),
   ("rangd;", "⦒"), ("range;", "⦥"), ("rangle;", "⟩"), ("raquo", "»"), ("raquo;", "»"),
   ("rarr;", "→"), ("rarrap;", "⥵"), ("rarrb;", "⇥"), ("rarrbfs;", "⤠"), ("rarrc;", "⤳"),
   ("rarrfs;", "⤞"), ("rarrhk;", "↪"), ("rarrlp;", "↬"), ("rarrpl;", "⥅"), ("rarrsim;", "⥴"),
   ("rarrtl;", "↣"), ("rarrw;", "↝"), ("ratail;", "⤚"), ("ratio;", "∶"), ("rationals;", "ℚ"),
   ("rbarr;", "⤍"), ("rbbrk;", "❳"), ("rbrace;", "\x7d"), ("rbrack;", "]"), ("rbrke;", "⦌"),
   ("rbrksld;", "⦎"), ("rbrkslu;", "⦐"), ("rcaron;", "ř"), ("rcedil;", "ŗ"), ("rceil;", "⌉"),
   ("rcub;", "\x7d"), ("rcy;", "р"), ("rdca;", "⤷"), ("rdldhar;", "⥩"), ("rdquo;", "”"),
   ("rdquor;", "”"), ("rdsh;", "↳"), ("real;", "ℜ"), ("realine;", "ℛ"), ("realpart;", "ℜ"),
   ("reals;", "ℝ"), ("rect;", "▭"), ("reg", "®"), ("reg;", "®"), ("rfisht;", "⥽"),
   ("rfloor;", "⌋"), ("rfr;", "𝔯"), ("rhard;", "⇁"), ("rharu;", "⇀"), ("rharul;", "⥬"),
   ("rho;", "ρ"), ("rhov;", "ϱ"), ("rightarrow;", "→"), ("rightarrowtail;", "↣"),
   ("rightharpoondown;", "⇁"), ("rightharpoonup;", "⇀"), ("rightleftarrows;", "⇄"),
   ("rightleftharpoons;", "⇌"), ("rightrightarrows;", "⇉"), ("rightsquigarrow;", "↝"),
   ("rightthreetimes;", "⋌"), ("ring;", "˚"), ("risingdotseq;", "≓"), ("rlarr;", "⇄"),
   ("rlhar;", "⇌"), ("rlm;", "\u200f"), ("rmoust;", "⎱"), ("rmoustache;", "⎱"), ("rnmid;", "⫮"),
   ("roang;", "⟭"), ("roarr;", "⇾"), ("robrk;", "⟧"), ("ropar;", "⦆"), ("ropf;", "𝕣"),
   ("roplus;", "⨮"), ("rotimes;", "⨵"), ("rpar;", ")"), ("rpargt;", "⦔"), ("rppolint;", "⨒"),
   ("rrarr;", "⇉"), ("rsaquo;", "›"), ("rscr;", "𝓇"), ("rsh;", "↱"), ("rsqb;", "]"),
   ("rsquo;", "’"), ("rsquor;", "’"), ("rthree;", "⋌"), ("rtimes;", "⋊"), ("rtri;", "▹"),
   ("rtrie;", "⊵"), ("rtrif;", "▸"), ("rtriltri;", "⧎"), ("ruluhar;", "⥨"), ("rx;", "℞")
  ]

def namesLowerS : List (String × String) :=
  [
   ("sacute;", "ś"), ("sbquo;", "‚"), ("sc;", "≻"), ("scE;", "⪴"), ("scap;", "⪸"),
   ("scaron;", "š"), ("sccue;", "≽"), ("sce;", "⪰"), ("scedil;", "ş"), ("scirc;", "ŝ"),
   ("scnE;", "⪶"), ("scnap;", "⪺"), ("scnsim;", "⋩"), ("scpolint;", "⨓"), ("scsim;", "≿"),
   ("scy;", "с"), ("sdot;", "⋅"), ("sdotb;", "⊡"), ("sdote;", "⩦"), ("seArr;", "⇘"),
   ("searhk;", "⤥"), ("searr;", "↘"), ("searrow;", "↘"), ("sect", "§"), ("sect;", "§"),
   ("semi;", ";"), ("seswar;", "⤩"), ("setminus;", "∖"), ("setmn;", "∖"), ("sext;", "✶"),
   ("sfr;", "𝔰"), ("sfrown;", "⌢"), ("sharp;", "♯"), ("shchcy;", "щ"), ("shcy;", "ш"),
   ("shortmid;", "∣"), ("shortparallel;", "∥"), ("shy", "\u00ad"), ("shy;", "\u00ad"),
   ("sigma;", "σ"), ("sigmaf;", "ς"), ("sigmav;", "ς"), ("sim;", "∼"), ("simdot;", "⩪"),
   ("sime;", "≃"), ("simeq;", "≃"), ("simg;", "⪞"), ("simgE;", "⪠"), ("siml;", "⪝"),
   ("simlE;", "⪟"), ("simne;", "≆"), ("simplus;", "⨤"), ("simrarr;", "⥲"), ("slarr;", "←"),
   ("smallsetminus;", "∖"), ("smashp;", "⨳"), ("smeparsl;", "⧤"), ("smid;", "∣"),
   ("smile;", "⌣"), ("smt;", "⪪"), ("smte;", "⪬"), ("smtes;", "⪬\ufe00"), ("softcy;", "ь"),
   ("sol;", "/"), ("solb;", "⧄"), ("solbar;", "⌿"), ("sopf;", "𝕤"), ("spades;", "♠"),
   ("spadesuit;", "♠"), ("spar;", "∥"), ("sqcap;", "⊓"), ("sqcaps;", "⊓\ufe00"), ("sqcup;", "⊔"),
   ("sqcups;", "⊔\ufe00"), ("sqsub;", "⊏"), ("sqsube;", "⊑"), ("sqsubset;", "⊏"),
   ("sqsubseteq;", "⊑"), ("sqsup;", "⊐"), ("sqsupe;", "⊒"), ("sqsupset;", "⊐"),
   ("sqsupseteq;", "⊒"), ("squ;", "□"), ("square;", "□"), ("squarf;", "▪"), ("squf;", "▪"),
   ("srarr;", "→"), ("sscr;", "𝓈"), ("ssetmn;", "∖"), ("ssmile;", "⌣"), ("sstarf;", "⋆"),
   ("star;", "☆"), ("starf;", "★"), ("straightepsilon;", "ϵ"), ("straightphi;", "ϕ"),
   ("strns;", "¯"), ("sub;", "⊂"), ("subE;", "⫅"), ("subdot;", "⪽"), ("sube;", "⊆"),
   ("subedot;", "⫃"), ("submult;", "⫁"), ("subnE;", "⫋"), ("subne;", "⊊"), ("subplus;", "⪿"),
   ("subrarr;", "⥹"), ("subset;", "⊂"), ("subseteq;", "⊆"), ("subseteqq;", "⫅"),
   ("subsetneq;", "⊊"), ("subsetneqq;", "⫋"), ("subsim;", "⫇"), ("subsub;", "⫕"),
   ("subsup;", "⫓"), ("succ;", "≻"), ("succapprox;", "⪸"), ("succcurlyeq;", "≽"),
   ("succeq;", "⪰"), ("succnapprox;", "⪺"), ("succneqq;", "⪶"), ("succnsim;", "⋩"),
   ("succsim;", "≿"), ("sum;", "∑"), ("sung;", "♪"), ("sup1", "¹"), ("sup1;", "¹"),
   ("sup2", "²"), ("sup2;", "²"), ("sup3", "³"), ("sup3;", "³"), ("sup;", "⊃"), ("supE;", "⫆"),
   ("supdot;", "⪾"), ("supdsub;", "⫘"), ("supe;", "⊇"), ("supedot;", "⫄"), ("suphsol;", "⟉"),
   ("suphsub;", "⫗"), ("suplarr;", "⥻"), ("supmult;", "⫂"), ("supnE;", "⫌"), ("supne;", "⊋"),
   ("supplus;", "⫀"), ("supset;", "⊃"), ("supseteq;", "⊇"), ("supseteqq;", "⫆"),
   ("supsetneq;", "⊋"), ("supsetneqq;", "⫌"), ("supsim;", "⫈"), ("supsub;", "⫔"),
   ("supsup;", "⫖"), ("swArr;", "⇙"), ("swarhk;", "⤦"), ("swarr;", "↙"), ("swarrow;", "↙"),
   ("swnwar;", "⤪"), ("szlig", "ß"), ("szlig;", "ß")
  ]

def namesLowerT : List (String × String) :=
  [
   ("target;", "⌖"), ("tau;", "τ"), ("tbrk;", "⎴"), ("tcaron;", "ť"), ("tcedil;", "ţ"),
   ("tcy;", "т"), ("tdot;", "\u20db"), ("telrec;", "⌕"), ("tfr;", "𝔱"), ("there4;", "∴"),
   ("therefore;", "∴"), ("theta;", "θ"), ("thetasym;", "ϑ"), ("thetav;", "ϑ"),
   ("thickapprox;", "≈"), ("thicksim;", "∼"), ("thinsp;", "\u2009"), ("thkap;", "≈"),
   ("thksim;", "∼"), ("thorn", "þ"), ("thorn;", "þ"), ("tilde;", "˜"), ("times", "×"),
   ("times;", "×"), ("timesb;", "⊠"), ("timesbar;", "⨱"), ("timesd;", "⨰"), ("tint;", "∭"),
   ("toea;", "⤨"), ("top;", "⊤"), ("topbot;", "⌶"), ("topcir;", "⫱"), ("topf;", "𝕥"),
   ("topfork;", "⫚"), ("tosa;", "⤩"), ("tprime;", "‴"), ("trade;", "™"), ("triangle;", "▵"),
   ("triangledown;", "▿"), ("triangleleft;", "◃"), ("trianglelefteq;", "⊴"), ("triangleq;", "≜"),
   ("triangleright;", "▹"), ("trianglerighteq;", "⊵"), ("tridot;", "◬"), ("trie;", "≜"),
   ("triminus;", "⨺"), ("triplus;", "⨹"), ("trisb;", "⧍"), ("tritime;", "⨻"), ("trpezium;", "⏢"),
   ("tscr;", "𝓉"), ("tscy;", "ц"), ("tshcy;", "ћ"), ("tstrok;", "ŧ"), ("twixt;", "≬"),
   ("twoheadleftarrow;", "↞"), ("twoheadrightarrow;", "↠")
  ]

def namesLowerU : List (String × String) :=
  [
   ("uArr;", "⇑"), ("uHar;", "⥣"), ("uacute", "ú"), ("uacute;", "ú"), ("uarr;", "↑"),
   ("ubrcy;", "ў"), ("ubreve;", "ŭ"), ("ucirc", "û"), ("ucirc;", "û"), ("ucy;", "у"),
   ("udarr;", "⇅"), ("udblac;", "ű"), ("udhar;", "⥮"), ("ufisht;", "⥾"), ("ufr;", "𝔲"),
   ("ugrave", "ù"), ("ugrave;", "ù"), ("uharl;", "↿"), ("uharr;", "↾"), ("uhblk;", "▀"),
   ("ulcorn;", "⌜"), ("ulcorner;", "⌜"), ("ulcrop;", "⌏"), ("ultri;", "◸"), ("umacr;", "ū"),
   ("uml", "¨"), ("uml;", "¨"), ("uogon;", "ų"), ("uopf;", "𝕦"), ("uparrow;", "↑"),
   ("updownarrow;", "↕"), ("upharpoonleft;", "↿"), ("upharpoonright;", "↾"), ("uplus;", "⊎"),
   ("upsi;", "υ"), ("upsih;", "ϒ"), ("upsilon;", "υ"), ("upuparrows;", "⇈"), ("urcorn;", "⌝"),
   ("urcorner;", "⌝"), ("urcrop;", "⌎"), ("uring;", "ů"), ("urtri;", "◹"), ("uscr;", "𝓊"),
   ("utdot;", "⋰"), ("utilde;", "ũ"), ("utri;", "▵"), ("utrif;", "▴"), ("uuarr;", "⇈"),
   ("uuml", "ü"), ("uuml;", "ü"), ("uwangle;", "⦧")
  ]

def namesLowerV : List (String × String) :=
  [
   ("vArr;", "⇕"), ("vBar;", "⫨"), ("vBarv;", "⫩"), ("vDash;", "⊨"), ("vangrt;", "⦜"),
   ("varepsilon;", "ϵ"), ("varkappa;", "ϰ"), ("varnothing;", "∅"), ("varphi;", "ϕ"),
   ("varpi;", "ϖ"), ("varpropto;", "∝"), ("varr;", "↕"), ("varrho;", "ϱ"), ("varsigma;", "ς"),
   ("varsubsetneq;", "⊊\ufe00"), ("varsubsetneqq;", "⫋\ufe00"), ("varsupsetneq;", "⊋\ufe00"),
   ("varsupsetneqq;", "⫌\ufe00"), ("vartheta;", "ϑ"), ("vartriangleleft;", "⊲"),
   ("vartriangleright;", "⊳"), ("vcy;", "в"), ("vdash;", "⊢"), ("vee;", "∨"), ("veebar;", "⊻"),
   ("veeeq;", "≚"), ("vellip;", "⋮"), ("verbar;", "|"), ("vert;", "|"), ("vfr;", "𝔳"),
   ("vltri;", "⊲"), ("vnsub;", "⊂\u20d2"), ("vnsup;", "⊃\u20d2"), ("vopf;", "𝕧"),
   ("vprop;", "∝"), ("vrtri;", "⊳"), ("vscr;", "𝓋"), ("vsubnE;", "⫋\ufe00"),
   ("vsubne;", "⊊\ufe00"), ("vsupnE;", "⫌\ufe00"), ("vsupne;", "⊋\ufe00"), ("vzigzag;", "⦚")
  ]

def namesLowerW : List (String × String) :=
  [
   ("wcirc;", "ŵ"), ("wedbar;", "⩟"), ("wedge;", "∧"), ("wedgeq;", "≙"), ("weierp;", "℘"),
   ("wfr;", "𝔴"), ("wopf;", "𝕨"), ("wp;", "℘"), ("wr;", "≀"), ("wreath;", "≀"), ("wscr;", "𝓌")
  ]

def namesLowerX : List (String × String) :=
  [
   ("xcap;", "⋂"), ("xcirc;", "◯"), ("xcup;", "⋃"), ("xdtri;", "▽"), ("xfr;", "𝔵"),
   ("xhArr;", "⟺"), ("xharr;", "⟷"), ("xi;", "ξ"), ("xlArr;", "⟸"), ("xlarr;", "⟵"),
   ("xmap;", "⟼"), ("xnis;", "⋻"), ("xodot;", "⨀"), ("xopf;", "𝕩"), ("xoplus;", "⨁"),
   ("xotime;", "⨂"), ("xrArr;", "⟹"), ("xrarr;", "⟶"), ("xscr;", "𝓍"), ("xsqcup;", "⨆"),
   ("xuplus;", "⨄"), ("xutri;", "△"), ("xvee;", "⋁"), ("xwedge;", "⋀")
  ]

def namesLowerY : List (String × String) :=
  [
   ("yacute", "ý"), ("yacute;", "ý"), ("yacy;", "я"), ("ycirc;", "ŷ"), ("ycy;", "ы"),
   ("yen", "¥"), ("yen;", "¥"), ("yfr;", "𝔶"), ("yicy;", "ї"), ("yopf;", "𝕪"), ("yscr;", "𝓎"),
   ("yucy;", "ю"), ("yuml", "ÿ"), ("yuml;", "ÿ")
  ]

def namesLowerZ : List (String × String) :=
  [
   ("zacute;", "ź"), ("zcaron;", "ž"), ("zcy;", "з"), ("zdot;", "ż"), ("zeetrf;", "ℨ"),
   ("zeta;", "ζ"), ("zfr;", "𝔷"), ("zhcy;", "ж"), ("zigrarr;", "⇝"), ("zopf;", "𝕫"),
   ("zscr;", "𝓏"), ("zwj;", "\u200d"), ("zwnj;", "\u200c")
  ]

end HtmlDeps.Entity
