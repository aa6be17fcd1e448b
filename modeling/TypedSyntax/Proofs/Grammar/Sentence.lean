import TypedSyntax.Grammar.Reader
import TypedSyntax.Proofs.Except

/-!
# What the reader accepts

The rules of grammar text say which lists of tokens spell which declarations. They are stated here
one by one, as relations between tokens and what they spell: `Field.Spelled`, `Constructor.Spelled`,
`Declarations.ItemSpelled` and, for whole texts, `Declarations.Spelled`.

* `Declarations.read_eq_ok_iff` — the reader accepts exactly the lists of tokens that spell
  declarations, and it returns these.

The reader takes one token after the other, so for one direction there is an invariant: for each
stage, what the tokens read so far are a beginning of (`Reader.Reached`). One token keeps it
(`Reader.Reached.step`), and where the reader may stop the tokens spell the declarations it has
(`Reader.Reached.spelled`). For the other direction the reader is run over what each rule derives,
from the fields up (`Reader.after?_fields`, `Reader.after?_constructors`, `Reader.after?_item`).
-/

namespace TypedSyntax

/-! ### The rules -/

section Rules

variable {α : Type} {sep : TokenKind} {R : List Token → α → Prop}

/-- Tokens that spell a list of things, at least one, with a token of a given kind between each two
of them. -/
inductive Separated (sep : TokenKind) (R : List Token → α → Prop) : List Token → List α → Prop where
  | one {ts : List Token} {x : α} (h : R ts x) : Separated sep R ts [x]
  | more {ts us : List Token} {t : Token} {xs : List α} {x : α} (before : Separated sep R ts xs)
      (ht : t.kind = sep) (h : R us x) : Separated sep R (ts ++ t :: us) (xs ++ [x])

/-- A list can also be made longer at its front. The rules add at its end, as a reader does. -/
theorem Separated.cons {ts us : List Token} {t : Token} {x : α} {xs : List α} (hx : R us x)
    (ht : t.kind = sep) (h : Separated sep R ts xs) :
    Separated sep R (us ++ t :: ts) (x :: xs) := by
  induction h with
  | one h => exact .more (.one hx) ht h
  | more _ ht' h ih => simpa using Separated.more ih ht' h

theorem Separated.ne_nil {ts : List Token} {xs : List α} (h : Separated sep R ts xs) :
    xs ≠ [] := by
  cases h <;> simp

/-- What each member has because of its tokens, all members have because of all tokens. -/
theorem Separated.forall_mem {P : α → Prop} {Q : Token → Prop} {ts : List Token} {xs : List α}
    (h : Separated sep R ts xs) (hts : ∀ t ∈ ts, Q t)
    (hR : ∀ us x, R us x → (∀ t ∈ us, Q t) → P x) : ∀ x ∈ xs, P x := by
  induction h with
  | one h => simpa using hR _ _ h hts
  | more _ _ h ih =>
    simp only [List.forall_mem_append, List.forall_mem_cons] at hts ⊢
    exact ⟨ih hts.1, hR _ _ h hts.2.2, by simp⟩

/-- A name is spelled by one word. -/
inductive NameSpelled : List Token → String → Prop where
  | intro {t : Token} (ht : t.kind = .identifier) : NameSpelled [t] t.text

/-- The suffix of a type name: nothing, a question mark or a star. -/
inductive Cardinality.Spelled : List Token → Cardinality → Prop where
  | single : Spelled [] .single
  | optional {t : Token} (ht : t.kind = .question) : Spelled [t] .optional
  | multiple {t : Token} (ht : t.kind = .star) : Spelled [t] .multiple

/-- A field: a type name, its suffix, and a field name. -/
inductive Field.Spelled : List Token → Field → Prop where
  | intro {type name : Token} {suffix : List Token} {k : Cardinality}
      (htype : type.kind = .identifier) (hsuffix : Cardinality.Spelled suffix k)
      (hname : name.kind = .identifier) :
      Spelled (type :: (suffix ++ [name])) ⟨name.text, type.text, k⟩

/-- A constructor: a name, and optionally a pair of parentheses with fields separated by commas. -/
inductive Constructor.Spelled : List Token → Constructor → Prop where
  | bare {name : Token} (hname : name.kind = .identifier) : Spelled [name] ⟨name.text, []⟩
  | empty {name left right : Token} (hname : name.kind = .identifier)
      (hleft : left.kind = .leftParen) (hright : right.kind = .rightParen) :
      Spelled [name, left, right] ⟨name.text, []⟩
  | fields {name left right : Token} {ts : List Token} {fs : List Field}
      (hname : name.kind = .identifier) (hleft : left.kind = .leftParen)
      (hfields : Separated .comma Field.Spelled ts fs) (hright : right.kind = .rightParen) :
      Spelled (name :: left :: (ts ++ [right])) ⟨name.text, fs⟩

namespace Declarations

/-- What two lists of declarations declare together. -/
def append (d e : Declarations) : Declarations :=
  ⟨d.primitives ++ e.primitives, d.sums ++ e.sums⟩

/-- An item: the word `primitive` and names separated by commas, or a name, `=` and constructors
separated by bars. -/
inductive ItemSpelled : List Token → Declarations → Prop where
  | primitives {word : Token} {ts : List Token} {names : List String}
      (hword : word.kind = .primitive) (hnames : Separated .comma NameSpelled ts names) :
      ItemSpelled (word :: ts) { primitives := names }
  | sum {name equals : Token} {ts : List Token} {cs : List Constructor}
      (hname : name.kind = .identifier) (hequals : equals.kind = .equals)
      (hconstructors : Separated .pipe Constructor.Spelled ts cs) :
      ItemSpelled (name :: equals :: ts) { sums := [⟨name.text, cs⟩] }

/-- A text: any number of items. -/
inductive Spelled : List Token → Declarations → Prop where
  | nil : Spelled [] {}
  | item {ts us : List Token} {d e : Declarations} (before : Spelled ts d) (h : ItemSpelled us e) :
      Spelled (ts ++ us) (d.append e)

theorem append_primitive (d : Declarations) (names : List String) (name : String) :
    d.append { primitives := names ++ [name] } =
      (d.append { primitives := names }).addPrimitive name := by
  simp [append, addPrimitive]

theorem append_sum (d : Declarations) (s : SumType) : d.append { sums := [s] } = d.addSum s := by
  simp [append, addSum]

theorem append_empty (d : Declarations) : d.append {} = d := by
  simp [append]

end Declarations

/-- Tokens of a separated list after which one more thing has to follow: nothing yet, or things and
a separator. -/
inductive Pending (sep : TokenKind) (R : List Token → α → Prop) : List Token → List α → Prop where
  | start : Pending sep R [] []
  | next {ts : List Token} {t : Token} {xs : List α} (before : Separated sep R ts xs)
      (ht : t.kind = sep) : Pending sep R (ts ++ [t]) xs

/-- With one more thing, what was pending is a list again. -/
theorem Pending.add {ts us : List Token} {xs : List α} {x : α} (h : Pending sep R ts xs)
    (hx : R us x) : Separated sep R (ts ++ us) (xs ++ [x]) := by
  cases h with
  | start => exact .one hx
  | next before ht =>
    rw [List.append_assoc, List.singleton_append]
    exact .more before ht hx

end Rules

/-! ### What has been read -/

namespace Reader

/-- The tokens of a text up to a place where a constructor has to follow, with the declarations that
are complete and the sum type so far. -/
inductive SumBegun : List Token → Declarations → SumType → Prop where
  | intro {ts us : List Token} {d : Declarations} {name equals : Token} {cs : List Constructor}
      (before : Declarations.Spelled ts d) (hname : name.kind = .identifier)
      (hequals : equals.kind = .equals) (hus : Pending .pipe Constructor.Spelled us cs) :
      SumBegun (ts ++ name :: equals :: us) d ⟨name.text, cs⟩

/-- The tokens of a text up to a place where a field has to follow, with the declarations that are
complete, the sum type and the constructor so far. -/
inductive ConstructorBegun : List Token → Declarations → SumType → Constructor → Prop where
  | intro {ts us : List Token} {d : Declarations} {s : SumType} {name left : Token}
      {fs : List Field} (before : SumBegun ts d s) (hname : name.kind = .identifier)
      (hleft : left.kind = .leftParen) (hus : Pending .comma Field.Spelled us fs) :
      ConstructorBegun (ts ++ name :: left :: us) d s ⟨name.text, fs⟩

/-- The tokens after which the reader is where it is, one rule for each stage. A rule has just what
the stage has forgotten of the tokens: what they spell so far, and which one has to come next. -/
inductive Reached : List Token → Reader → Prop where
  | item {ts : List Token} {d : Declarations} (h : Declarations.Spelled ts d) :
      Reached ts ⟨d, .item⟩
  | primitive {ts us : List Token} {d : Declarations} {word : Token} {names : List String}
      (h : Declarations.Spelled ts d) (hword : word.kind = .primitive)
      (hus : Pending .comma NameSpelled us names) :
      Reached (ts ++ word :: us) ⟨d.append { primitives := names }, .primitive⟩
  | primitiveDone {ts us : List Token} {d : Declarations} {word : Token} {names : List String}
      (h : Declarations.Spelled ts d) (hword : word.kind = .primitive)
      (hus : Separated .comma NameSpelled us names) :
      Reached (ts ++ word :: us) ⟨d.append { primitives := names }, .primitiveDone⟩
  | sumName {ts : List Token} {d : Declarations} {name : Token} (h : Declarations.Spelled ts d)
      (hname : name.kind = .identifier) : Reached (ts ++ [name]) ⟨d, .sumName name.text⟩
  | constructor {ts : List Token} {d : Declarations} {s : SumType} (h : SumBegun ts d s) :
      Reached ts ⟨d, .constructor s⟩
  | constructorName {ts : List Token} {d : Declarations} {s : SumType} {name : Token}
      (h : SumBegun ts d s) (hname : name.kind = .identifier) :
      Reached (ts ++ [name]) ⟨d, .constructorName s name.text⟩
  | fields {ts : List Token} {d : Declarations} {s : SumType} {name left : Token}
      (h : SumBegun ts d s) (hname : name.kind = .identifier) (hleft : left.kind = .leftParen) :
      Reached (ts ++ [name, left]) ⟨d, .fields s name.text⟩
  | nextField {ts : List Token} {d : Declarations} {s : SumType} {c : Constructor}
      (h : ConstructorBegun ts d s c) : Reached ts ⟨d, .nextField s c⟩
  | fieldType {ts : List Token} {d : Declarations} {s : SumType} {c : Constructor} {type : Token}
      (h : ConstructorBegun ts d s c) (htype : type.kind = .identifier) :
      Reached (ts ++ [type]) ⟨d, .fieldType s c type.text⟩
  | fieldName {ts : List Token} {d : Declarations} {s : SumType} {c : Constructor}
      {type mark : Token} {k : Cardinality} (h : ConstructorBegun ts d s c)
      (htype : type.kind = .identifier) (hmark : Cardinality.Spelled [mark] k) :
      Reached (ts ++ [type, mark]) ⟨d, .fieldName s c type.text k⟩
  | fieldDone {ts us : List Token} {d : Declarations} {s : SumType} {name left : Token}
      {fs : List Field} (h : SumBegun ts d s) (hname : name.kind = .identifier)
      (hleft : left.kind = .leftParen) (hus : Separated .comma Field.Spelled us fs) :
      Reached (ts ++ name :: left :: us) ⟨d, .fieldDone s ⟨name.text, fs⟩⟩
  | constructorDone {ts us : List Token} {d : Declarations} {name equals : Token}
      {cs : List Constructor} (h : Declarations.Spelled ts d) (hname : name.kind = .identifier)
      (hequals : equals.kind = .equals) (hus : Separated .pipe Constructor.Spelled us cs) :
      Reached (ts ++ name :: equals :: us) ⟨d, .constructorDone ⟨name.text, cs⟩⟩

variable {r r' : Reader} {d : Declarations} {s : SumType} {c : Constructor} {t : Token}
  {ts us : List Token}

/-- A constructor completes what may be an item, or goes before a bar. -/
theorem SumBegun.add (h : SumBegun ts d s) (hc : Constructor.Spelled us c) :
    Reached (ts ++ us) ⟨d, .constructorDone (s.add c)⟩ := by
  cases h with
  | intro before hname hequals hus =>
    rw [List.append_assoc]
    exact .constructorDone before hname hequals (hus.add hc)

/-- A field goes before a comma or a closing parenthesis. -/
theorem ConstructorBegun.add {f : Field} (h : ConstructorBegun ts d s c)
    (hf : Field.Spelled us f) : Reached (ts ++ us) ⟨d, .fieldDone s (c.add f)⟩ := by
  cases h with
  | intro before hname hleft hus =>
    rw [List.append_assoc]
    exact .fieldDone before hname hleft (hus.add hf)

/-- Where the reader may stop, the tokens spell the declarations that it has. -/
theorem Reached.spelled (h : Reached ts r) (hclose : r.close? = some d) :
    Declarations.Spelled ts d := by
  cases h with
  | item h =>
    obtain rfl := Option.some.inj hclose
    exact h
  | primitiveDone h hword hus =>
    obtain rfl := Option.some.inj hclose
    exact .item h (.primitives hword hus)
  | constructorName h hname =>
    -- A constructor without parentheses is complete as it is.
    obtain rfl := Option.some.inj hclose
    cases h with
    | intro before hname' hequals hus =>
      rw [List.append_assoc, ← Declarations.append_sum]
      exact .item before (.sum hname' hequals (hus.add (.bare hname)))
  | constructorDone h hname hequals hus =>
    obtain rfl := Option.some.inj hclose
    rw [← Declarations.append_sum]
    exact .item h (.sum hname hequals hus)
  | primitive | sumName | constructor | fields | nextField | fieldType | fieldName | fieldDone =>
    exact absurd hclose nofun

/-- A token that starts an item. The declarations in front of it are complete, and the item has no
tokens behind its first one yet. -/
theorem reached_of_startItem? (h : Declarations.Spelled ts d) (ht : startItem? d t = some r) :
    Reached (ts ++ [t]) r := by
  unfold startItem? at ht
  split at ht
  · next hkind =>
    obtain rfl := Option.some.inj ht
    have hreached := Reached.primitive h hkind .start
    rwa [Declarations.append_empty] at hreached
  · next hkind =>
    obtain rfl := Option.some.inj ht
    exact .sumName h hkind
  · exact absurd ht nofun

/-- A constructor and a bar. The sum type has one constructor more, and asks for another one. -/
theorem SumBegun.next (h : SumBegun ts d s) (hc : Constructor.Spelled us c) (ht : t.kind = .pipe) :
    SumBegun (ts ++ us ++ [t]) d (s.add c) := by
  cases h with
  | intro before hname hequals hus =>
    simpa [SumType.add] using SumBegun.intro before hname hequals (.next (hus.add hc) ht)

/-! #### One more token at each stage

Each stage has a lemma of its own, which lists the tokens that go on from there and says for each of
them by which rule of `Reached` the next stage is reached. All other tokens are refused, since the
reader has no row for them. -/

/-- Where the name of a primitive type has to follow, it completes what may be an item. -/
theorem continue_primitive {word : Token} {names : List String} (h : Declarations.Spelled ts d)
    (hword : word.kind = .primitive) (hus : Pending .comma NameSpelled us names)
    (ht : continueItem? ⟨d.append { primitives := names }, .primitive⟩ t = some r') :
    Reached (ts ++ word :: us ++ [t]) r' := by
  cases hkind : t.kind with
  | identifier =>
    obtain rfl : _ = r' := by simpa only [continueItem?, hkind, Option.some.injEq] using ht
    rw [List.append_assoc, ← Declarations.append_primitive]
    exact .primitiveDone h hword (hus.add (.intro hkind))
  | _ => simp [continueItem?, hkind] at ht

/-- Behind the name of a primitive type a comma asks for another one. -/
theorem continue_primitiveDone {word : Token} {names : List String}
    (h : Declarations.Spelled ts d) (hword : word.kind = .primitive)
    (hus : Separated .comma NameSpelled us names)
    (ht : continueItem? ⟨d.append { primitives := names }, .primitiveDone⟩ t = some r') :
    Reached (ts ++ word :: us ++ [t]) r' := by
  cases hkind : t.kind with
  | comma =>
    obtain rfl : _ = r' := by simpa only [continueItem?, hkind, Option.some.injEq] using ht
    rw [List.append_assoc]
    exact .primitive h hword (.next hus hkind)
  | _ => simp [continueItem?, hkind] at ht

/-- Behind the name of a sum type only `=` goes on, and the sum type has no constructors yet. -/
theorem continue_sumName {name : Token} (h : Declarations.Spelled ts d)
    (hname : name.kind = .identifier)
    (ht : continueItem? ⟨d, .sumName name.text⟩ t = some r') :
    Reached (ts ++ [name] ++ [t]) r' := by
  cases hkind : t.kind with
  | equals =>
    obtain rfl : _ = r' := by simpa only [continueItem?, hkind, Option.some.injEq] using ht
    rw [List.append_assoc]
    exact .constructor (.intro h hname hkind .start)
  | _ => simp [continueItem?, hkind] at ht

/-- Where a constructor has to follow, its name goes on. -/
theorem continue_constructor (h : SumBegun ts d s)
    (ht : continueItem? ⟨d, .constructor s⟩ t = some r') : Reached (ts ++ [t]) r' := by
  cases hkind : t.kind with
  | identifier =>
    obtain rfl : _ = r' := by simpa only [continueItem?, hkind, Option.some.injEq] using ht
    exact .constructorName h hkind
  | _ => simp [continueItem?, hkind] at ht

/-- Behind the name of a constructor either its fields follow, or it has none and a bar asks for
the next constructor. -/
theorem continue_constructorName {name : Token} (h : SumBegun ts d s)
    (hname : name.kind = .identifier)
    (ht : continueItem? ⟨d, .constructorName s name.text⟩ t = some r') :
    Reached (ts ++ [name] ++ [t]) r' := by
  cases hkind : t.kind with
  | leftParen =>
    obtain rfl : _ = r' := by simpa only [continueItem?, hkind, Option.some.injEq] using ht
    rw [List.append_assoc]
    exact .fields h hname hkind
  | pipe =>
    obtain rfl : _ = r' := by simpa only [continueItem?, hkind, Option.some.injEq] using ht
    exact .constructor (h.next (.bare hname) hkind)
  | _ => simp [continueItem?, hkind] at ht

/-- Behind an opening parenthesis either it is closed at once, or the type of the first field
follows. -/
theorem continue_fields {name left : Token} (h : SumBegun ts d s) (hname : name.kind = .identifier)
    (hleft : left.kind = .leftParen)
    (ht : continueItem? ⟨d, .fields s name.text⟩ t = some r') :
    Reached (ts ++ [name, left] ++ [t]) r' := by
  cases hkind : t.kind with
  | rightParen =>
    obtain rfl : _ = r' := by simpa only [continueItem?, hkind, Option.some.injEq] using ht
    rw [List.append_assoc]
    exact h.add (.empty hname hleft hkind)
  | identifier =>
    obtain rfl : _ = r' := by simpa only [continueItem?, hkind, Option.some.injEq] using ht
    exact .fieldType (.intro h hname hleft .start) hkind
  | _ => simp [continueItem?, hkind] at ht

/-- Where a field has to follow, its type goes on. -/
theorem continue_nextField (h : ConstructorBegun ts d s c)
    (ht : continueItem? ⟨d, .nextField s c⟩ t = some r') : Reached (ts ++ [t]) r' := by
  cases hkind : t.kind with
  | identifier =>
    obtain rfl : _ = r' := by simpa only [continueItem?, hkind, Option.some.injEq] using ht
    exact .fieldType h hkind
  | _ => simp [continueItem?, hkind] at ht

/-- Behind the type of a field a mark says how many values it takes. Without one it takes a single
value, and the name of the field completes it. -/
theorem continue_fieldType {type : Token} (h : ConstructorBegun ts d s c)
    (htype : type.kind = .identifier)
    (ht : continueItem? ⟨d, .fieldType s c type.text⟩ t = some r') :
    Reached (ts ++ [type] ++ [t]) r' := by
  rw [List.append_assoc]
  cases hkind : t.kind with
  | star =>
    obtain rfl : _ = r' := by simpa only [continueItem?, hkind, Option.some.injEq] using ht
    exact .fieldName h htype (.multiple hkind)
  | question =>
    obtain rfl : _ = r' := by simpa only [continueItem?, hkind, Option.some.injEq] using ht
    exact .fieldName h htype (.optional hkind)
  | identifier =>
    obtain rfl : _ = r' := by simpa only [continueItem?, hkind, Option.some.injEq] using ht
    exact h.add (.intro htype .single hkind)
  | _ => simp [continueItem?, hkind] at ht

/-- Behind the type of a field and its mark, the name of the field completes it. -/
theorem continue_fieldName {type mark : Token} {k : Cardinality} (h : ConstructorBegun ts d s c)
    (htype : type.kind = .identifier) (hmark : Cardinality.Spelled [mark] k)
    (ht : continueItem? ⟨d, .fieldName s c type.text k⟩ t = some r') :
    Reached (ts ++ [type, mark] ++ [t]) r' := by
  cases hkind : t.kind with
  | identifier =>
    obtain rfl : _ = r' := by simpa only [continueItem?, hkind, Option.some.injEq] using ht
    rw [List.append_assoc]
    exact h.add (.intro htype hmark hkind)
  | _ => simp [continueItem?, hkind] at ht

/-- Behind a field either a comma asks for another one, or the parenthesis is closed and the
constructor is complete. -/
theorem continue_fieldDone {name left : Token} {fs : List Field} (h : SumBegun ts d s)
    (hname : name.kind = .identifier) (hleft : left.kind = .leftParen)
    (hus : Separated .comma Field.Spelled us fs)
    (ht : continueItem? ⟨d, .fieldDone s ⟨name.text, fs⟩⟩ t = some r') :
    Reached (ts ++ name :: left :: us ++ [t]) r' := by
  rw [List.append_assoc]
  cases hkind : t.kind with
  | comma =>
    obtain rfl : _ = r' := by simpa only [continueItem?, hkind, Option.some.injEq] using ht
    exact .nextField (.intro h hname hleft (.next hus hkind))
  | rightParen =>
    obtain rfl : _ = r' := by simpa only [continueItem?, hkind, Option.some.injEq] using ht
    exact h.add (.fields hname hleft hus hkind)
  | _ => simp [continueItem?, hkind] at ht

/-- Behind a closing parenthesis a bar asks for the next constructor. -/
theorem continue_constructorDone {name equals : Token} {cs : List Constructor}
    (h : Declarations.Spelled ts d) (hname : name.kind = .identifier)
    (hequals : equals.kind = .equals) (hus : Separated .pipe Constructor.Spelled us cs)
    (ht : continueItem? ⟨d, .constructorDone ⟨name.text, cs⟩⟩ t = some r') :
    Reached (ts ++ name :: equals :: us ++ [t]) r' := by
  cases hkind : t.kind with
  | pipe =>
    obtain rfl : _ = r' := by simpa only [continueItem?, hkind, Option.some.injEq] using ht
    rw [List.append_assoc]
    exact .constructor (.intro h hname hequals (.next hus hkind))
  | _ => simp [continueItem?, hkind] at ht

/-- A token that goes on with the item at hand. Between items there is none, since every item has a
first token of its own. -/
theorem Reached.continue (h : Reached ts r) (ht : r.continueItem? t = some r') :
    Reached (ts ++ [t]) r' := by
  cases h with
  | item => exact absurd ht nofun
  | primitive h hword hus => exact continue_primitive h hword hus ht
  | primitiveDone h hword hus => exact continue_primitiveDone h hword hus ht
  | sumName h hname => exact continue_sumName h hname ht
  | constructor h => exact continue_constructor h ht
  | constructorName h hname => exact continue_constructorName h hname ht
  | fields h hname hleft => exact continue_fields h hname hleft ht
  | nextField h => exact continue_nextField h ht
  | fieldType h htype => exact continue_fieldType h htype ht
  | fieldName h htype hmark => exact continue_fieldName h htype hmark ht
  | fieldDone h hname hleft hus => exact continue_fieldDone h hname hleft hus ht
  | constructorDone h hname hequals hus => exact continue_constructorDone h hname hequals hus ht

/-- A token that the reader takes, be it in the item at hand or the first of the next one. -/
theorem Reached.step (h : Reached ts r) (ht : r.step? t = some r') : Reached (ts ++ [t]) r' := by
  unfold step? at ht
  split at ht
  · next hnext =>
    obtain rfl := Option.some.inj ht
    exact h.continue hnext
  · obtain ⟨d, hclose, hstart⟩ := Option.bind_eq_some_iff.1 ht
    exact reached_of_startItem? (h.spelled hclose) hstart

/-! ### Reading what the rules derive -/

/-- The reader after some more tokens. -/
def after? (r : Reader) (ts : List Token) : Option Reader :=
  ts.foldlM step? r

theorem after?_cons : r.after? (t :: ts) = (r.step? t).bind (·.after? ts) :=
  List.foldlM_cons

theorem after?_append : r.after? (ts ++ us) = (r.after? ts).bind (·.after? us) :=
  List.foldlM_append

/-- What one token keeps, a list of tokens keeps. The induction is on the tokens that are still to
come, and those before them get longer. -/
theorem Reached.after (h : Reached ts r) (hus : r.after? us = some r') : Reached (ts ++ us) r' := by
  induction us generalizing ts r with
  | nil =>
    obtain rfl := Option.some.inj hus
    rwa [List.append_nil]
  | cons t us ih =>
    rw [after?_cons] at hus
    obtain ⟨next, hnext, hus⟩ := Option.bind_eq_some_iff.1 hus
    rw [List.append_cons]
    exact ih (h.step hnext) hus

/-- A run up to the end token takes all tokens before it and may stop there. -/
theorem run_eq_ok_iff {e : Token} (hts : ∀ t ∈ ts, t.kind ≠ .eof) (he : e.kind = .eof) :
    r.run (ts ++ [e]) = .ok d ↔ ∃ r', r.after? ts = some r' ∧ r'.close? = some d := by
  induction ts generalizing r with
  | nil =>
    -- The end token is not taken: it makes the reader stop where it is.
    simp only [List.nil_append, run, he, if_true, run.finish]
    cases hclose : r.close? with
    | none => simp [after?, hclose]
    | some d' => simp [after?, hclose]
  | cons t ts ih =>
    obtain ⟨ht, hts⟩ := List.forall_mem_cons.1 hts
    simp only [List.cons_append, run, ht, if_false, after?_cons]
    cases r.step? t with
    | none => simp
    | some next => simpa using ih hts

/-- Names behind the word `primitive`. With each of them the item may end, but a comma goes on. -/
theorem after?_names {names : List String} (h : Separated .comma NameSpelled ts names) :
    after? ⟨d, .primitive⟩ ts = some ⟨d.append { primitives := names }, .primitiveDone⟩ := by
  induction h with
  | one h =>
    cases h with
    | intro ht => simp [after?, step?, continueItem?, Declarations.addPrimitive,
        Declarations.append, ht]
  | more _ hcomma h ih =>
    cases h with
    | intro ht =>
      -- The names before the comma are done, and the comma asks for this one.
      rw [after?_append, ih, Declarations.append_primitive]
      simp [after?, step?, continueItem?, hcomma, ht]

/-- A field, from a reader that takes the type of a field next. -/
theorem after?_field {f : Field}
    (hr : ∀ t, t.kind = .identifier → r.step? t = some ⟨d, .fieldType s c t.text⟩)
    (h : Field.Spelled ts f) : r.after? ts = some ⟨d, .fieldDone s (c.add f)⟩ := by
  cases h with
  | intro htype hsuffix hname =>
    rw [after?_cons, hr _ htype]
    cases hsuffix <;> simp [after?, step?, continueItem?, *]

/-- Fields between parentheses. The reader starts behind the opening one or behind a comma. -/
theorem after?_fields {fs : List Field}
    (hr : ∀ t, t.kind = .identifier → r.step? t = some ⟨d, .fieldType s c t.text⟩)
    (h : Separated .comma Field.Spelled ts fs) :
    r.after? ts = some ⟨d, .fieldDone s ⟨c.name, c.fields ++ fs⟩⟩ := by
  induction h with
  | one h => exact after?_field hr h
  | more _ hcomma h ih =>
    -- Behind a comma the reader is at another stage, but it takes the same tokens.
    have hnext : ∀ c t, t.kind = .identifier →
        step? ⟨d, .nextField s c⟩ t = some ⟨d, .fieldType s c t.text⟩ :=
      fun c t ht => by simp [step?, continueItem?, ht]
    rw [after?_append, ih, Option.bind_some, after?_cons]
    simp [step?, continueItem?, hcomma, after?_field (hnext _) h, Constructor.add]

/-- The places at which a sum type may end: behind the name of a constructor without parentheses,
and behind a closing parenthesis. -/
inductive SumEnds (d : Declarations) : SumType → Reader → Prop where
  | bare (s : SumType) (name : String) :
      SumEnds d (s.add ⟨name, []⟩) ⟨d, .constructorName s name⟩
  | closed (s : SumType) : SumEnds d s ⟨d, .constructorDone s⟩

/-- Where a sum type may end, it is complete as it is. -/
theorem SumEnds.close? (h : SumEnds d s r) : r.close? = some (d.append { sums := [s] }) := by
  rw [Declarations.append_sum]
  cases h <;> rfl

/-- Where a sum type may end, a bar makes it go on. -/
theorem SumEnds.step? (h : SumEnds d s r) (ht : t.kind = .pipe) :
    r.step? t = some ⟨d, .constructor s⟩ := by
  cases h <;> simp [Reader.step?, continueItem?, ht]

/-- A constructor, behind which the sum type may end. -/
theorem after?_constructor (h : Constructor.Spelled ts c) :
    ∃ r, after? ⟨d, .constructor s⟩ ts = some r ∧ SumEnds d (s.add c) r := by
  cases h with
  | bare hname =>
    exact ⟨_, by simp [after?, step?, continueItem?, hname], .bare s _⟩
  | empty hname hleft hright =>
    exact ⟨_, by simp [after?, step?, continueItem?, hname, hleft, hright], .closed _⟩
  | @fields name _ _ _ _ hname hleft hfields hright =>
    -- Behind the opening parenthesis a field may follow, as it may behind a comma.
    have hfirst : ∀ t, t.kind = .identifier →
        step? ⟨d, .fields s name.text⟩ t = some ⟨d, .fieldType s ⟨name.text, []⟩ t.text⟩ :=
      fun t ht => by simp [step?, continueItem?, ht]
    refine ⟨_, ?_, .closed _⟩
    simp only [after?_cons, after?_append, step?, continueItem?, hname, hleft, Option.bind_some,
      after?_fields hfirst hfields]
    simp [after?, hright]

/-- Constructors separated by bars. The induction adds at the end of the list, so each step starts
where the constructors before it may end, which has one of two forms. -/
theorem after?_constructors {cs : List Constructor}
    (h : Separated .pipe Constructor.Spelled ts cs) :
    ∃ r, after? ⟨d, .constructor s⟩ ts = some r ∧
      SumEnds d ⟨s.name, s.constructors ++ cs⟩ r := by
  induction h with
  | one h => exact after?_constructor h
  | @more _ _ _ cs _ _ hpipe h ih =>
    -- The constructors before the bar end at one of two places, and the bar is taken at both.
    obtain ⟨r, hr, hend⟩ := ih
    obtain ⟨r', hr', hend'⟩ := after?_constructor (s := ⟨s.name, s.constructors ++ cs⟩) h
    refine ⟨r', ?_, by simpa [SumType.add] using hend'⟩
    rw [after?_append, hr, Option.bind_some, after?_cons, hend.step? hpipe]
    exact hr'

/-- Where the item at hand may end, the first token of an item starts one. -/
theorem step?_eq_startItem? (hr : r.close? = some d)
    (ht : t.kind = .identifier ∨ t.kind = .primitive) : r.step? t = startItem? d t := by
  -- No stage at which an item may end has a row for one of these two kinds.
  have hnone : r.continueItem? t = none := by
    obtain ⟨e, stage⟩ := r
    rcases ht with ht | ht <;> cases stage <;> simp_all [continueItem?, Reader.close?]
  simp [step?, hnone, hr]

/-- An item, from wherever the one before it may end. -/
theorem after?_item {e : Declarations} (h : Declarations.ItemSpelled ts e)
    (hr : r.close? = some d) : ∃ r', r.after? ts = some r' ∧ r'.close? = some (d.append e) := by
  cases h with
  | @primitives _ _ names hword hnames =>
    refine ⟨⟨d.append { primitives := names }, .primitiveDone⟩, ?_, rfl⟩
    rw [after?_cons, step?_eq_startItem? hr (.inr hword)]
    simp [startItem?, hword, after?_names hnames]
  | @sum name _ _ _ hname hequals hconstructors =>
    obtain ⟨r', hr', hend⟩ := after?_constructors (d := d) (s := ⟨name.text, []⟩) hconstructors
    refine ⟨r', ?_, hend.close?⟩
    rw [after?_cons, step?_eq_startItem? hr (.inl hname)]
    simpa [startItem?, hname, after?_cons, step?, continueItem?, hequals] using hr'

/-- A whole text, behind which the reader may stop with what the text declares. -/
theorem after?_spelled (h : Declarations.Spelled ts d) :
    ∃ r, after? {} ts = some r ∧ r.close? = some d := by
  induction h with
  | nil => exact ⟨{}, rfl, rfl⟩
  | item _ h ih =>
    -- Nothing is known of where the items before have ended but that the reader may stop there.
    obtain ⟨r, hr, hclose⟩ := ih
    obtain ⟨r', hr', hclose'⟩ := after?_item h hclose
    exact ⟨r', by rw [after?_append, hr, Option.bind_some, hr'], hclose'⟩

end Reader

/-- The reader accepts exactly the lists of tokens that spell declarations, and returns these. -/
theorem Declarations.read_eq_ok_iff {ts : List Token} {e : Token} {d : Declarations}
    (hts : ∀ t ∈ ts, t.kind ≠ .eof) (he : e.kind = .eof) :
    read (ts ++ [e]) = .ok d ↔ Spelled ts d := by
  rw [read, Reader.run_eq_ok_iff hts he]
  constructor
  · -- The invariant holds in front of the first token, where nothing has been read.
    rintro ⟨r, hr, hclose⟩
    exact ((Reader.Reached.item .nil).after hr).spelled hclose
  · exact Reader.after?_spelled

theorem Grammar.ofText_eq_ok_iff {text : String} {g : Grammar} :
    ofText text = .ok g ↔
      ∃ ts, Token.scan text = .ok ts ∧ Declarations.read ts = .ok g.declarations := by
  unfold ofText
  simp only [bind_eq_ok_iff, mapError_eq_ok_iff, ofDeclarations_eq_ok_iff]
  constructor
  · rintro ⟨ts, hts, d, hd, rfl⟩
    exact ⟨ts, hts, hd⟩
  · rintro ⟨ts, hts, hd⟩
    exact ⟨ts, hts, _, hd, rfl⟩

end TypedSyntax
