import GoBindings.Proofs.Forwards

/-!
# References to other packages

A declaration refers to what it names with a package, and to the methods that it selects from what
it converts to a type of that package. The declarations that pass a symbol on refer to what the
symbol stands for, and besides that to the support package and to the types that getters return.
-/

namespace GoBindings

open List Schema Go

/-- Something in a package that another package can refer to. -/
inductive Reference where
  | struct (name : String)
  | type (name : String)
  | value (sort : ValueSort) (name : String)
  | func (name : String)
  | method (type name : String)
  deriving DecidableEq, Repr

/-- A reference, after the package that it is to. -/
abbrev Mention : Type := String × Reference

namespace Go

@[simp] def TypeExpr.mentions : TypeExpr → List Mention
  | .qualified package n => [(package, .type n)]
  | .pointer t | .slice t => t.mentions
  | .map k v => k.mentions ++ v.mentions
  | .name _ | .anything => []

/-- The method of a value of the type, or of a pointer to such. -/
@[simp] def TypeExpr.method (name : String) : TypeExpr → List Mention
  | .qualified package n | .pointer (.qualified package n) => [(package, .method n name)]
  | _ => []

namespace Expr

/-- The type that a value is converted to or asserted to have. -/
@[simp] def stated? : Expr → Option TypeExpr
  | call (type t) _ | call (paren (type t)) _ | assert _ t => some t
  | paren e => e.stated?
  | _ => none

/-- The types of a value, where variables have the types given. -/
@[simp] def types (vars : List (String × TypeExpr)) : Expr → List TypeExpr
  | name x => (vars.filter (·.1 = x)).map (·.2)
  | e => e.stated?.toList

mutual

/-- What an expression refers to in other packages, among the values to those of a sort. -/
@[simp] def mentions (sort : ValueSort) (vars : List (String × TypeExpr)) : Expr → List Mention
  | name _ | number _ | literal _ => []
  | qualified package n => [(package, .value sort n)]
  | type t => t.mentions
  | select e m => e.mentions sort vars ++ (e.types vars).flatMap (·.method m)
  | paren e | star e | address e | spread e => e.mentions sort vars
  | call f args => f.mentions sort vars ++ mentionsAll sort vars args
  | composite t elems => t.mentions ++ mentionsAll sort vars elems
  | assert e t => e.mentions sort vars ++ t.mentions
  | index e i | binary e _ i | tight e _ i => e.mentions sort vars ++ i.mentions sort vars

@[simp] def mentionsAll (sort : ValueSort) (vars : List (String × TypeExpr)) :
    List Expr → List Mention
  | [] => []
  | e :: es => e.mentions sort vars ++ mentionsAll sort vars es

end

end Expr

namespace Simple

@[simp] def exprs : Simple → List Expr
  | eval e => [e]
  | assign left _ right => left ++ right
  | ret values => values

/-- The variables that get a value with a type stated for it. -/
@[simp] def typed : Simple → List (String × TypeExpr)
  | assign left _ right => (left.zip right).filterMap fun
    | (.name x, e) => e.stated?.map (Prod.mk x)
    | _ => none
  | _ => []

end Simple

namespace Stmt

mutual

/-- The simple statements inside, conditions and what is switched on among them. -/
@[simp] def simples : Stmt → List Simple
  | simple s | noted s _ => [s]
  | comment _ => []
  | retList values t elems => [.ret (values ++ [.composite t elems])]
  | ifThen init cond body => init.toList ++ .eval cond :: simplesAll body
  | ifLine cond s => [.eval cond, s]
  | typeSwitch _ subject cases | switchOn subject cases => .eval subject :: simplesCases cases
  | forRange _ _ subject body => .eval subject :: simplesAll body

@[simp] def simplesAll : List Stmt → List Simple
  | [] => []
  | s :: ss => s.simples ++ simplesAll ss

@[simp] def simplesCases : List Case → List Simple
  | [] => []
  | .on label body :: cs | .onNoted label _ body :: cs =>
    .eval label :: simplesAll body ++ simplesCases cs
  | .otherwise body :: cs => simplesAll body ++ simplesCases cs

end

end Stmt

@[simp] def Results.toList {α : Type} : Results α → List α
  | .none => []
  | .one t | .named _ t => [t]
  | .many ts => ts

@[simp] def ResultType.types : ResultType → List TypeExpr
  | .type t => [t]
  | .func f => f.params.map (·.type) ++ f.results.toList

namespace Func

@[simp] def simples (f : Func) : List Simple :=
  match f.body with
  | .empty => []
  | .line s => [s]
  | .block body => Stmt.simplesAll body

@[simp] def mentions (f : Func) : List Mention :=
  (f.params.map (·.type) ++ f.results.toList.flatMap ResultType.types).flatMap TypeExpr.mentions ++
    Expr.mentionsAll .var (f.simples.flatMap Simple.typed) (f.simples.flatMap Simple.exprs)

end Func

/-- What a declaration refers to in other packages. A constant is made of constants. -/
@[simp] def Decl.mentions : Decl → List Mention
  | .blank | .comment _ | .blockComment _ | .package _ | .imports _ | .constants _
  | .interface _ _ => []
  | .value sort _ type e _ => type.toList.flatMap TypeExpr.mentions ++ e.mentions sort []
  | .typeDef _ t | .wrapper _ _ t _ => t.mentions
  | .struct _ members => members.flatMap fun
    | .field _ t _ | .embedded t _ => t.mentions
    | _ => []
  | .table _ _ t entries => t.mentions ++ entries.flatMap fun
    | .comment _ => []
    | .keyed key e => Expr.mentionsAll .var [] [key, e]
    | .group values | .row values => Expr.mentionsAll .var [] values
  | .func f => f.mentions

end Go

/-- What a symbol stands for. -/
def Symbol.references : Symbol → List Reference
  | .message m =>
    [.struct m.name, .type m.name, .method m.name "Reset", .method m.name "String"] ++
      m.getters.map (fun g => .method m.name g.name) ++
      (if m.hasExtensions then [.method m.name "ExtensionRangeArray"] else []) ++
      (if m.isMessageSet then [.method m.name "Marshal", .method m.name "Unmarshal"] else []) ++
      (if m.hasOneof then [.method m.name "XXX_OneofFuncs"] else [])
  | .enum name proto3 =>
    [.type name, .value .var (name ++ "_name"), .value .var (name ++ "_value"),
      .method name "String"] ++
      (if proto3 then [] else [.method name "Enum", .method name "UnmarshalJSON"])
  | .value sort name _ => [.value sort name]

namespace Binder

variable {b : Binder} {package : String} {part : Part}

/-- The types that a getter is declared to return pieces of, as the file writes them. -/
def getterTypes (b : Binder) : GetterShape → List TypeExpr
  | .plain t => [t]
  | .named target _ _ => (b.localName target).toOption.toList.map (·.1)
  | .map key target _ => key :: (b.localName target).toOption.toList.map (·.1)

def symbolTypes (b : Binder) : Symbol → List TypeExpr
  | .message m => m.getters.flatMap (b.getterTypes ·.shape)
  | _ => []

/-- What may be referred to where a symbol of a package is passed on. -/
def warranted (b : Binder) (package : String) (x : Symbol) : List Mention :=
  x.references.map (Prod.mk package) ++
    ["ExtensionRange", "Message", "Buffer"].map (fun name => (b.proto, .type name)) ++
    (b.symbolTypes x).flatMap TypeExpr.mentions

theorem enumForward_warranted (name : String) (proto3 : Bool) :
    (enumForward name proto3 package).flatMap Decl.mentions ⊆
      b.warranted package (.enum name proto3) := by
  cases proto3 <;> simp [enumForward, returning, toRemote, warranted, Symbol.references]

theorem valueForward_warranted (sort : ValueSort) (name : String) (cast : Option String) :
    (valueForward sort name cast package).mentions ⊆
      b.warranted package (.value sort name cast) := by
  cases cast <;> simp [valueForward, warranted, Symbol.references]

variable {m : MessageSymbol}

theorem extensionForwards_warranted (h : m.hasExtensions = true) :
    (b.extensionForwards m.name m.isMessageSet (.qualified package m.name)).flatMap Decl.mentions ⊆
      b.warranted package (.message m) := by
  cases hset : m.isMessageSet <;>
    simp [extensionForwards, returning, pointerToRemote, toRemote, warranted, Symbol.references, h,
      hset]

theorem unionForwards_warranted (h : m.hasOneof = true) :
    (b.unionForwards m.name (.qualified package m.name)).flatMap Decl.mentions ⊆
      b.warranted package (.message m) := by
  simp [unionForwards, unionForward, unionFuncResults, funcOf, bindMessage, writerType, readerType,
    sizerType, pointerToRemote, toRemote, filterMap_cons, warranted, Symbol.references, h]

theorem getterForward_warranted {g : GetterSymbol} (hg : g ∈ m.getters)
    (h : b.getterForward m.name (.qualified package m.name) g = .ok part) :
    part.decls.flatMap Decl.mentions ⊆ b.warranted package (.message m) := by
  have htypes : ∀ t ∈ b.getterTypes g.shape, t.mentions ⊆ b.warranted package (.message m) := by
    intro t ht y hy
    exact mem_append_right _ (mem_flatMap.mpr ⟨t, mem_flatMap.mpr ⟨g, hg, ht⟩, hy⟩)
  have htype : (package, Reference.type m.name) ∈ b.warranted package (.message m) := by
    simp [warranted, Symbol.references]
  have hmethod : (package, Reference.method m.name g.name) ∈ b.warranted package (.message m) := by
    have hname : ∃ g' ∈ m.getters, g'.name = g.name := ⟨g, hg, rfl⟩
    simp [warranted, Symbol.references, hname]
  have hsilent {target : Object} {name : TypeExpr} {part : Part}
      (h : b.localName target = .ok (name, part)) : part.decls = [] := by
    rcases localName_eq_ok h with ⟨-, -, -, rfl⟩ | ⟨-, -, -, rfl, -⟩ <;> rfl
  unfold getterForward at h
  split at h
  · rename_i t hshape
    cases h
    have ht := htypes t (by simp [hshape, getterTypes])
    simp [returning, pointerToRemote, toRemote, ht, htype, hmethod]
  · rename_i target pointer repeated hshape
    simp only [steps_eq_ok] at h
    obtain ⟨⟨name, part'⟩, hlocal, rfl⟩ := h
    have hname := htypes name (by simp [hshape, getterTypes, hlocal, Except.toOption])
    cases pointer <;> cases repeated <;>
      simp [copyingGetter, returning, pointerToRemote, toRemote, filterMap_cons, hsilent hlocal,
        hname, htype, hmethod]
  · rename_i key target pointer hshape
    simp only [steps_eq_ok] at h
    obtain ⟨⟨name, part'⟩, hlocal, rfl⟩ := h
    have hkey := htypes key (by simp [hshape, getterTypes])
    have hname := htypes name (by simp [hshape, getterTypes, hlocal, Except.toOption])
    cases pointer <;>
      simp [copyingGetter, pointerToRemote, toRemote, filterMap_cons, hsilent hlocal, hkey, hname,
        htype, hmethod]

theorem symbolForward_warranted {x : Symbol} (h : b.symbolForward package x = .ok part) :
    part.decls.flatMap Decl.mentions ⊆ b.warranted package x := by
  cases x with
  | enum name proto3 =>
    cases h
    exact enumForward_warranted name proto3
  | value sort name cast =>
    cases h
    simpa using valueForward_warranted sort name cast
  | message m =>
    simp only [symbolForward, messageForward, steps_eq_ok] at h
    obtain ⟨getters, hgetters, rfl⟩ := h
    rw [Part.decls_append, flatMap_append, append_subset]
    refine ⟨?_, ?_⟩
    · simp only [flatMap_append, append_subset]
      refine ⟨⟨?_, ?_⟩, ?_⟩
      · simp [returning, pointerToRemote, toRemote, warranted, Symbol.references]
      · split
        · exact extensionForwards_warranted ‹_›
        · exact nil_subset _
      · split
        · exact unionForwards_warranted ‹_›
        · exact nil_subset _
    · intro y hy
      obtain ⟨d, hd, hy⟩ := mem_flatMap.mp hy
      rw [Part.decls_concat] at hd
      obtain ⟨p, hp, hd⟩ := mem_flatMap.mp hd
      obtain ⟨g, hg, hpart⟩ := exists_of_mem_mapM hgetters hp
      exact getterForward_warranted hg hpart (mem_flatMap.mpr ⟨d, hd, hy⟩)

end Binder

end GoBindings
