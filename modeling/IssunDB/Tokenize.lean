import IssunDB.Lib.Table
import IssunDB.Schema

/-!
# Tokenization

How a text becomes index terms: diacritics are folded, the text is split at Unicode word
boundaries, each word is lowered, dropped if it is a stop word of the language, and stemmed. The
word segmentation, the Unicode lowering and the stemmer are library code and stay parameters
(`TextLib`); the folding, the stop words and the counting are the source's own.

`tokenize` always counts a term at least once (`tokenize_pos`), so a text has terms iff its token
count is positive (`tokenCount_pos_iff`).
-/

namespace IssunDB

/-- The text libraries the tokenizer rests on. -/
class TextLib where
  /-- Words at Unicode word boundaries. -/
  unicodeWords : String → List String
  /-- Unicode lower case. -/
  toLowercase : String → String
  /-- Snowball stemming. -/
  stem : Language → String → String

@[reducible]
def TextLib.ascii : TextLib where
  unicodeWords text := (text.splitOn " ").filter (· ≠ "")
  toLowercase := String.toLower
  stem _ word := word

def stopWordsEn : List String :=
  ["a", "about", "above", "after", "again", "against", "all", "am", "an", "and", "any", "are",
    "aren't", "as", "at", "be", "because", "been", "before", "being", "below", "between", "both",
    "but", "by", "can't", "cannot", "could", "couldn't", "did", "didn't", "do", "does",
    "doesn't", "doing", "don't", "down", "during", "each", "few", "for", "from", "further",
    "had", "hadn't", "has", "hasn't", "have", "haven't", "having", "he", "he'd", "he'll", "he's",
    "her", "here", "here's", "hers", "herself", "him", "himself", "his", "how", "how's", "i",
    "i'd", "i'll", "i'm", "i've", "if", "in", "into", "is", "isn't", "it", "it's", "its",
    "itself", "let's", "me", "more", "most", "mustn't", "my", "myself", "no", "nor", "not", "of",
    "off", "on", "once", "only", "or", "other", "ought", "our", "ours", "ourselves", "out",
    "over", "own", "same", "shan't", "she", "she'd", "she'll", "she's", "should", "shouldn't",
    "so", "some", "such", "than", "that", "that's", "the", "their", "theirs", "them",
    "themselves", "then", "there", "there's", "these", "they", "they'd", "they'll", "they're",
    "they've", "this", "those", "through", "to", "too", "under", "until", "up", "very", "was",
    "wasn't", "we", "we'd", "we'll", "we're", "we've", "were", "weren't", "what", "what's",
    "when", "when's", "where", "where's", "which", "while", "who", "who's", "whom", "why",
    "why's", "with", "won't", "would", "wouldn't", "you", "you'd", "you'll", "you're", "you've",
    "your", "yours", "yourself", "yourselves"]

def stopWordsEs : List String :=
  ["el", "la", "los", "las", "un", "una", "unos", "unas", "y", "o", "pero", "si", "de", "del",
    "a", "al", "en", "con", "por", "para", "como", "es", "esta", "fue", "son", "sus", "mi", "tu",
    "su", "nos", "me", "te", "se", "lo", "le", "que", "este", "esta", "aquel", "ella", "ellos",
    "ellas", "nosotros", "vosotros", "mi", "mis", "tus", "sus", "muy", "tambien", "como",
    "donde"]

def stopWordsFr : List String :=
  ["le", "la", "les", "un", "une", "des", "et", "ou", "mais", "si", "de", "du", "des", "à", "au",
    "aux", "en", "avec", "par", "pour", "comme", "est", "sont", "était", "été", "mon", "ton",
    "son", "mes", "tes", "ses", "nous", "vous", "il", "elle", "ils", "elles", "se", "y", "en",
    "que", "qui", "ce", "cette", "dans", "sur", "pas", "plus", "très", "mais", "donc", "ou"]

def stopWordsDe : List String :=
  ["der", "die", "das", "ein", "eine", "einer", "eines", "einem", "einen", "und", "oder", "aber",
    "wenn", "von", "vom", "zu", "zum", "zur", "in", "im", "mit", "für", "wie", "ist", "sind",
    "war", "gewesen", "mein", "dein", "sein", "ihr", "wir", "ihr", "sie", "es", "er", "sich",
    "dass", "was", "wer", "wie", "aus", "bei", "nach", "um", "am", "an", "als", "auch", "so"]

def stopWordsIt : List String :=
  ["il", "la", "i", "gli", "le", "un", "uno", "una", "e", "o", "ma", "se", "di", "da", "in",
    "con", "su", "per", "tra", "fra", "come", "è", "sono", "era", "stato", "il mio", "mio",
    "tuo", "suo", "nostro", "vostro", "loro", "mi", "ti", "si", "ci", "vi", "lo", "gli", "che",
    "chi", "questo", "quello", "anche", "più", "non", "perché", "ed", "ad"]

def stopWordsPt : List String :=
  ["o", "a", "os", "as", "um", "uma", "uns", "umas", "e", "ou", "mas", "se", "de", "do", "da",
    "dos", "das", "em", "no", "na", "nos", "nas", "com", "por", "para", "como", "é", "são",
    "era", "foi", "meu", "teu", "seu", "nosso", "vosso", "me", "te", "se", "lhe", "o", "a",
    "que", "quem", "este", "esta", "aquele", "também", "mais", "não", "porque", "com", "sem"]

def getStopWords : Language → List String
  | .english => stopWordsEn
  | .spanish => stopWordsEs
  | .french => stopWordsFr
  | .german => stopWordsDe
  | .italian => stopWordsIt
  | .portuguese => stopWordsPt

/-- The ASCII base of a character with diacritics. -/
def foldChar (c : Char) : Option String :=
  if c ∈ ['À', 'Á', 'Â', 'Ã', 'Ä', 'Å', 'à', 'á', 'â', 'ã', 'ä', 'å'] then some "a"
  else if c ∈ ['Æ', 'æ'] then some "ae"
  else if c ∈ ['Ç', 'ç'] then some "c"
  else if c ∈ ['È', 'É', 'Ê', 'Ë', 'è', 'é', 'ê', 'ë'] then some "e"
  else if c ∈ ['Ì', 'Í', 'Î', 'Ï', 'ì', 'í', 'î', 'ï'] then some "i"
  else if c ∈ ['Ð', 'ð'] then some "d"
  else if c ∈ ['Ñ', 'ñ'] then some "n"
  else if c ∈ ['Ò', 'Ó', 'Ô', 'Õ', 'Ö', 'Ø', 'ò', 'ó', 'ô', 'õ', 'ö', 'ø'] then some "o"
  else if c ∈ ['Ù', 'Ú', 'Û', 'Ü', 'ù', 'ú', 'û', 'ü'] then some "u"
  else if c ∈ ['Ý', 'ý', 'ÿ'] then some "y"
  else if c ∈ ['ß'] then some "ss"
  else if c ∈ ['Þ', 'þ'] then some "th"
  else none

def foldAscii (text : String) : String :=
  text.toList.foldl (fun out c =>
    match foldChar c with
    | some s => out ++ s
    | none => out.push c) ""

/-- The longest term, in bytes, that is indexed. -/
def maxFtsTermLen : ℕ := 480

section Tokenize

variable [TextLib]

def countWord (lang : Language) (terms : Table String ℕ) (word : String) : Table String ℕ :=
  let lower := TextLib.toLowercase word
  if lower ∈ getStopWords lang then terms
  else
    let stemmed := TextLib.stem lang lower
    if maxFtsTermLen < (stringBytes stemmed).length then terms
    else terms.put stemmed ((terms.get stemmed).getD 0 + 1)

/-- The terms of a text with their frequencies. -/
def tokenize (text : String) (lang : Language) : Table String ℕ :=
  (TextLib.unicodeWords (foldAscii text)).foldl (countWord lang) .empty

/-- The token count of a text, `terms.values().sum()`. -/
def tokenCount (terms : Table String ℕ) : ℕ := (terms.toList.map Prod.snd).sum

variable {lang : Language}

lemma countWord_pos {terms : Table String ℕ}
    (h : ∀ term freq, terms.get term = some freq → 0 < freq) (word : String) :
    ∀ term freq, (countWord lang terms word).get term = some freq → 0 < freq := by
  intro term freq hget
  simp only [countWord] at hget
  split at hget
  · exact h _ _ hget
  · split at hget
    · exact h _ _ hget
    · rw [Table.get_put] at hget
      split at hget
      · obtain rfl := Option.some.inj hget
        omega
      · exact h _ _ hget

/-- A term that occurs has a positive frequency. -/
theorem tokenize_pos {text : String} {term : String} {freq : ℕ}
    (h : (tokenize text lang).get term = some freq) : 0 < freq := by
  have hfold : ∀ (words : List String) (terms : Table String ℕ),
      (∀ term freq, terms.get term = some freq → 0 < freq) →
        ∀ term freq, (words.foldl (countWord lang) terms).get term = some freq → 0 < freq := by
    intro words
    induction words with
    | nil => intro terms hterms; exact hterms
    | cons word words ih =>
      intro terms hterms
      exact ih _ (countWord_pos hterms word)
  exact hfold _ .empty (by simp) _ _ h

theorem tokenCount_pos_iff {text : String} :
    0 < tokenCount (tokenize text lang) ↔ ∃ term freq, (tokenize text lang).get term =
    some freq := by
  rw [tokenCount, List.sum_pos_iff_exists_pos_nat]
  constructor
  · rintro ⟨freq, hmem, -⟩
    obtain ⟨⟨term, freq'⟩, hentry, -⟩ := List.mem_map.mp hmem
    exact ⟨term, freq', Table.mem_toList.mp hentry⟩
  · rintro ⟨term, freq, hget⟩
    exact ⟨freq, List.mem_map.mpr ⟨(term, freq), Table.mem_toList.mpr hget, rfl⟩,
      tokenize_pos hget⟩

end Tokenize

end IssunDB
