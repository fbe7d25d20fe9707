import SelectionQuery.Schema.Build

/-! # A small social graph

Users with a name, friends, an optional partner that is a user or a string, and a birth date:

    root           { users: [User] }
    PersonName     { first: Text, last: Text }
    User           { name(exampleArg1: [ID<User>]): PersonName,
                     friends: [User],
                     partner: UserOrString?,
                     birthDate(exampleArg2: Time?): Time }
    ID<User>       32 hexadecimal digits
    UserOrString = User | String
-/
namespace SelectionQuery.Schema.UserGraph

def string : TypeId := 5
def text : TypeId := 6
def time : TypeId := 7
def personName : TypeId := 8
def user : TypeId := 9
def userId : TypeId := 10
def userOrString : TypeId := 11

def rootContents : Contents where
  properties := [("users", { target := user, list := true })]

def personNameContents : Contents where
  properties := [("first", { target := text }), ("last", { target := text })]

def userContents : Contents where
  properties :=
    [("name", { target := personName
                arguments := .ofList [("exampleArg1", { type := userId, list := true })] }),
     ("friends", { target := user, list := true }),
     ("partner", { target := userOrString, optional := true }),
     ("birthDate", { target := time
                     arguments := .ofList [("exampleArg2", { type := time, optional := true })] })]

def userOrStringContents : Contents where
  members := [user, string]

def steps : List Step :=
  Primitive.all.map .primitive ++
  [.declare "PersonName" .struct,
   .declare "User" .entity,
   .entityId "ID<User>" ⟨user, .hex32⟩,
   .declare "UserOrString" .union,
   .define rootId rootContents,
   .define personName personNameContents,
   .define user userContents,
   .define userOrString userOrStringContents]

end SelectionQuery.Schema.UserGraph

namespace SelectionQuery.Schema

/-- The schema of the social graph. Its steps have no problem, so the table without types is never
taken. -/
def userGraph : Schema :=
  match build UserGraph.steps with
  | .ok schema => schema
  | .error _ => ⟨[]⟩

end SelectionQuery.Schema
