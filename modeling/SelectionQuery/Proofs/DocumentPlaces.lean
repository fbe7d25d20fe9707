import SelectionQuery.Proofs.DocumentGrammar

/-! # Places in a document

Tokens lead from the top of a document to its parts: requested properties, names under `select` and
`accept`, arguments, fields of structs and positions in lists. What stands at a place is a part
together with the declaration that it is checked against.
-/
namespace SelectionQuery
open Schema

/-- A part of a document with what it is checked against. -/
inductive Place where
  | node (site : Site) (value : Json)
  /-- A value given for an argument, or for a field of a struct. -/
  | argument (declaration : Argument) (value : Json)
  /-- A value that has to be of a type. -/
  | literal (type : TypeId) (value : Json)
  /-- A value of a paging argument of a list with these elements. -/
  | paging (element : TypeId) (key : String) (value : Json)
  /-- A value that has to address such an element. -/
  | address (element : TypeId) (value : Json)

/-- The tokens lead from the top of the document to the place. Values of arguments are places only
where literals are checked. -/
inductive Leads (config : Config) (schema : Schema) (document : Json) : List String → Place → Prop
  | request {fields : List (String × Json)} {key name : String} {property : Property} {value : Json}
      (top : document = .object fields) (entry : (key, value) ∈ fields)
      (requests : Requests config schema key name property) :
      Leads config schema document [name] (.node (.property property) value)
  | name {tokens : List String} {site next : Site} {fields entries : List (String × Json)}
      {descent : Descent} {name : String} {value : Json}
      (parent : Leads config schema document tokens (.node site (.object fields)))
      (names : fields.lookup descent.key = some (.object entries)) (entry : (name, value) ∈ entries)
      (leads : descent.LeadsTo schema (site.target schema) name next) :
      Leads config schema document (tokens ++ [name]) (.node next value)
  | argument {tokens : List String} {property : Property} {fields entries : List (String × Json)}
      {name : String} {argument : Argument} {value : Json}
      (parent : Leads config schema document tokens (.node (.property property) (.object fields)))
      (checked : config.checkLiterals = true)
      (arguments : fields.lookup "args" = some (.object entries)) (entry : (name, value) ∈ entries)
      (declared : property.arguments.get? name = some argument) :
      Leads config schema document (tokens ++ [name]) (.argument argument value)
  | single {tokens : List String} {argument : Argument} {value : Json}
      (parent : Leads config schema document tokens (.argument argument value))
      (list : argument.list = false) (present : value ≠ .null) :
      Leads config schema document tokens (.literal argument.type value)
  | item {tokens : List String} {argument : Argument} {items : List Json} {index : Nat} {value : Json}
      (parent : Leads config schema document tokens (.argument argument (.array items)))
      (list : argument.list = true) (item : items[index]? = some value) :
      Leads config schema document (tokens ++ [Nat.repr index]) (.literal argument.type value)
  | field {tokens : List String} {id : TypeId} {fields : List (String × Json)} {name : String}
      {property : Property} {value : Json}
      (parent : Leads config schema document tokens (.literal id (.object fields)))
      (struct : (schema.typeAt id).kind = .struct) (entry : (name, value) ∈ fields)
      (declared : (schema.typeAt id).property? name = some property) :
      Leads config schema document (tokens ++ [name]) (.argument
        { type := property.target, list := property.list, optional := true } value)
  | paging {tokens : List String} {property : Property} {fields entries : List (String × Json)}
      {key : String} {value : Json}
      (parent : Leads config schema document tokens (.node (.property property) (.object fields)))
      (checked : config.checkLiterals = true)
      (arguments : fields.lookup "listArgs" = some (.object entries))
      (entry : (key, value) ∈ entries) (present : value ≠ .null) :
      Leads config schema document (tokens ++ [key]) (.paging property.target key value)
  | after {tokens : List String} {element : TypeId} {value : Json}
      (parent : Leads config schema document tokens (.paging element Paging.after value)) :
      Leads config schema document tokens (.address element value)
  | ids {tokens : List String} {element : TypeId} {items : List Json} {index : Nat} {value : Json}
      (parent : Leads config schema document tokens (.paging element Paging.ids (.array items)))
      (item : items[index]? = some value) :
      Leads config schema document (tokens ++ [Nat.repr index]) (.address element value)

/-- The handles at the place are in the table, and values are places only if they are checked. -/
def Place.Known (config : Config) (schema : Schema) : Place → Prop
  | .node site _ => site.Known schema
  | .argument declaration _ => config.checkLiterals = true ∧ declaration.type < schema.size
  | .literal type _ => config.checkLiterals = true ∧ type < schema.size
  | .paging _ _ _ | .address _ _ => config.checkLiterals = true

/-- Every step keeps to the table of a linked schema. -/
theorem Leads.known {config : Config} {schema : Schema} (hcheck : Checkable config schema)
    {document : Json} {tokens : List String} {place : Place}
    (h : Leads config schema document tokens place) : place.Known config schema := by
  have hl := hcheck.linked
  induction h with
  | request _ _ requests => exact requests.known hcheck
  | name _ _ _ leads ih => exact known_of_leadsTo hl (Site.Known.target_mem ih) leads
  | argument _ checked _ _ declared ih => exact ⟨checked, ih.2 _ _ declared⟩
  | single _ _ _ ih => exact ih
  | item _ _ _ ih => exact ih
  | field _ _ _ declared ih => exact ⟨ih.1, (known_property hl (typeAt_mem ih.2) declared).1⟩
  | paging _ checked => exact checked
  | after _ ih => exact ih
  | ids _ _ ih => exact ih

end SelectionQuery
