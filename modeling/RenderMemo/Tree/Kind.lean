namespace RenderMemo

-- The forms a program tree is built from, apart from identifiers, plain names and holes. A form is
-- named as in the interchange form of trees, save the few names that would be ambiguous there:
-- `entry` is one entry of an argument list or array literal, `optionalCall` is the call at the base
-- of an optional chain, and `templateLiteralType` is a template literal in type position.
inductive Kind where
  | invalid | exportDefaultExpression | exportDeclaration | importDeclaration
  | exportAllDeclaration | exportNamedDeclaration | exportDefaultDeclaration
  | importDefaultSpecifier | importNamespaceSpecifier | importSpecifier
  | exportNamespaceSpecifier | exportDefaultSpecifier | exportSpecifier | functionDeclaration
  | classDeclaration | variableDeclaration | variableDeclarator | usingDeclaration
  | blockStatement | expressionStatement | emptyStatement | debuggerStatement | withStatement
  | returnStatement | labeledStatement | breakStatement | continueStatement | ifStatement
  | switchStatement | throwStatement | tryStatement | whileStatement | doWhileStatement
  | forStatement | forInStatement | forOfStatement | switchCase | catchClause | classProperty
  | privateProperty | classMethod | privateMethod | classConstructor | decorator | staticBlock
  | autoAccessor | parameter | thisExpression | arrayExpression | objectExpression
  | spreadElement | unaryExpression | updateExpression | binaryExpression | functionExpression
  | classExpression | assignmentExpression | memberExpression | superPropExpression
  | conditionalExpression | callExpression | newExpression | sequenceExpression
  | arrowFunctionExpression | yieldExpression | metaProperty | awaitExpression | templateLiteral
  | taggedTemplateExpression | templateElement | parenthesisExpression | superReference
  | importCallee | entry | optionalChainingExpression | optionalCall | keyValueProperty
  | assignmentProperty | getterProperty | setterProperty | methodProperty | computed
  | bigIntLiteral | stringLiteral | booleanLiteral | nullLiteral | regExpLiteral | numericLiteral
  | jsxMemberExpression | jsxNamespacedName | jsxEmptyExpression | jsxExpressionContainer
  | jsxSpreadChild | jsxOpeningElement | jsxClosingElement | jsxAttribute | jsxText | jsxElement
  | jsxFragment | jsxOpeningFragment | jsxClosingFragment | privateName | arrayPattern
  | objectPattern | assignmentPattern | restElement | keyValuePatternProperty
  | assignmentPatternProperty | tsTypeAnnot | tsTypeParameterDeclaration | tsTypeParameter
  | tsTypeParameterInstantiation | tsParameterProperty | tsQualifiedName
  | tsCallSignatureDeclaration | tsConstructSignatureDeclaration | tsPropertySignature
  | tsGetterSignature | tsSetterSignature | tsMethodSignature | tsIndexSignature | tsKeywordType
  | tsThisType | tsFunctionType | tsConstructorType | tsTypeReference | tsTypePredicate
  | tsTypeQuery | tsImportType | tsTypeLiteral | tsArrayType | tsTupleType | tsTupleElement
  | tsOptionalType | tsRestType | tsUnionType | tsIntersectionType | tsConditionalType
  | tsInferType | tsParenthesizedType | tsTypeOperator | tsIndexedAccessType | tsMappedType
  | tsLiteralType | templateLiteralType | tsInterfaceDeclaration | tsInterfaceBody
  | tsExpressionWithTypeArguments | tsTypeAliasDeclaration | tsEnumDeclaration | tsEnumMember
  | tsModuleDeclaration | tsModuleBlock | tsNamespaceDeclaration | tsImportEqualsDeclaration
  | tsExternalModuleReference | tsExportAssignment | tsNamespaceExportDeclaration
  | tsAsExpression | tsTypeAssertion | tsNonNullExpression | tsSatisfiesExpression
  | tsConstAssertion | tsInstantiation
deriving DecidableEq, Repr

-- The places in which a form holds its parts.
inductive Field where
  | alternate | argument | arguments | attributes | base | block | body | callee | cases
  | checkType | children | closing | consequent | constraint | decl | declaration | declarations
  | decls | decorators | defaultType | discriminant | elemType | elemTypes | elements | exported
  | exprName | expression | expressions | extended | extendsType | falseType | finalizer
  | handler | id | identifier | implemented | imported | indexType | init | key | label | left
  | literal | localName | members | moduleRef | name | nameType | space | obj | object
  | objectType | opening | orig | param | paramName | parameters | params | pat | properties
  | property | qualifier | quasis | returnType | right | source | specifiers | stmts | superClass
  | superTypeParams | tag | template | test | thisParam | trueType | ty | typeAnn
  | annot | typeArguments | typeName | typeParam | typeParameters | typeParams | types
  | update | value | withClause
deriving DecidableEq, Repr

namespace Kind

-- All forms, in the order of their declaration.
def all : List Kind := [
  .invalid, .exportDefaultExpression, .exportDeclaration, .importDeclaration,
  .exportAllDeclaration, .exportNamedDeclaration, .exportDefaultDeclaration,
  .importDefaultSpecifier, .importNamespaceSpecifier, .importSpecifier,
  .exportNamespaceSpecifier, .exportDefaultSpecifier, .exportSpecifier, .functionDeclaration,
  .classDeclaration, .variableDeclaration, .variableDeclarator, .usingDeclaration,
  .blockStatement, .expressionStatement, .emptyStatement, .debuggerStatement, .withStatement,
  .returnStatement, .labeledStatement, .breakStatement, .continueStatement, .ifStatement,
  .switchStatement, .throwStatement, .tryStatement, .whileStatement, .doWhileStatement,
  .forStatement, .forInStatement, .forOfStatement, .switchCase, .catchClause, .classProperty,
  .privateProperty, .classMethod, .privateMethod, .classConstructor, .decorator, .staticBlock,
  .autoAccessor, .parameter, .thisExpression, .arrayExpression, .objectExpression,
  .spreadElement, .unaryExpression, .updateExpression, .binaryExpression, .functionExpression,
  .classExpression, .assignmentExpression, .memberExpression, .superPropExpression,
  .conditionalExpression, .callExpression, .newExpression, .sequenceExpression,
  .arrowFunctionExpression, .yieldExpression, .metaProperty, .awaitExpression, .templateLiteral,
  .taggedTemplateExpression, .templateElement, .parenthesisExpression, .superReference,
  .importCallee, .entry, .optionalChainingExpression, .optionalCall, .keyValueProperty,
  .assignmentProperty, .getterProperty, .setterProperty, .methodProperty, .computed,
  .bigIntLiteral, .stringLiteral, .booleanLiteral, .nullLiteral, .regExpLiteral, .numericLiteral,
  .jsxMemberExpression, .jsxNamespacedName, .jsxEmptyExpression, .jsxExpressionContainer,
  .jsxSpreadChild, .jsxOpeningElement, .jsxClosingElement, .jsxAttribute, .jsxText, .jsxElement,
  .jsxFragment, .jsxOpeningFragment, .jsxClosingFragment, .privateName, .arrayPattern,
  .objectPattern, .assignmentPattern, .restElement, .keyValuePatternProperty,
  .assignmentPatternProperty, .tsTypeAnnot, .tsTypeParameterDeclaration, .tsTypeParameter,
  .tsTypeParameterInstantiation, .tsParameterProperty, .tsQualifiedName,
  .tsCallSignatureDeclaration, .tsConstructSignatureDeclaration, .tsPropertySignature,
  .tsGetterSignature, .tsSetterSignature, .tsMethodSignature, .tsIndexSignature, .tsKeywordType,
  .tsThisType, .tsFunctionType, .tsConstructorType, .tsTypeReference, .tsTypePredicate,
  .tsTypeQuery, .tsImportType, .tsTypeLiteral, .tsArrayType, .tsTupleType, .tsTupleElement,
  .tsOptionalType, .tsRestType, .tsUnionType, .tsIntersectionType, .tsConditionalType,
  .tsInferType, .tsParenthesizedType, .tsTypeOperator, .tsIndexedAccessType, .tsMappedType,
  .tsLiteralType, .templateLiteralType, .tsInterfaceDeclaration, .tsInterfaceBody,
  .tsExpressionWithTypeArguments, .tsTypeAliasDeclaration, .tsEnumDeclaration, .tsEnumMember,
  .tsModuleDeclaration, .tsModuleBlock, .tsNamespaceDeclaration, .tsImportEqualsDeclaration,
  .tsExternalModuleReference, .tsExportAssignment, .tsNamespaceExportDeclaration,
  .tsAsExpression, .tsTypeAssertion, .tsNonNullExpression, .tsSatisfiesExpression,
  .tsConstAssertion, .tsInstantiation
]

-- The name of a form in the interchange form of trees. Forms that are told from their surroundings
-- share the name of their ordinary sibling, and an entry is written without a name.
def typeName : Kind → String
  | .invalid => "Invalid"
  | .exportDefaultExpression => "ExportDefaultExpression"
  | .exportDeclaration => "ExportDeclaration"
  | .importDeclaration => "ImportDeclaration"
  | .exportAllDeclaration => "ExportAllDeclaration"
  | .exportNamedDeclaration => "ExportNamedDeclaration"
  | .exportDefaultDeclaration => "ExportDefaultDeclaration"
  | .importDefaultSpecifier => "ImportDefaultSpecifier"
  | .importNamespaceSpecifier => "ImportNamespaceSpecifier"
  | .importSpecifier => "ImportSpecifier"
  | .exportNamespaceSpecifier => "ExportNamespaceSpecifier"
  | .exportDefaultSpecifier => "ExportDefaultSpecifier"
  | .exportSpecifier => "ExportSpecifier"
  | .functionDeclaration => "FunctionDeclaration"
  | .classDeclaration => "ClassDeclaration"
  | .variableDeclaration => "VariableDeclaration"
  | .variableDeclarator => "VariableDeclarator"
  | .usingDeclaration => "UsingDeclaration"
  | .blockStatement => "BlockStatement"
  | .expressionStatement => "ExpressionStatement"
  | .emptyStatement => "EmptyStatement"
  | .debuggerStatement => "DebuggerStatement"
  | .withStatement => "WithStatement"
  | .returnStatement => "ReturnStatement"
  | .labeledStatement => "LabeledStatement"
  | .breakStatement => "BreakStatement"
  | .continueStatement => "ContinueStatement"
  | .ifStatement => "IfStatement"
  | .switchStatement => "SwitchStatement"
  | .throwStatement => "ThrowStatement"
  | .tryStatement => "TryStatement"
  | .whileStatement => "WhileStatement"
  | .doWhileStatement => "DoWhileStatement"
  | .forStatement => "ForStatement"
  | .forInStatement => "ForInStatement"
  | .forOfStatement => "ForOfStatement"
  | .switchCase => "SwitchCase"
  | .catchClause => "CatchClause"
  | .classProperty => "ClassProperty"
  | .privateProperty => "PrivateProperty"
  | .classMethod => "ClassMethod"
  | .privateMethod => "PrivateMethod"
  | .classConstructor => "Constructor"
  | .decorator => "Decorator"
  | .staticBlock => "StaticBlock"
  | .autoAccessor => "AutoAccessor"
  | .parameter => "Parameter"
  | .thisExpression => "ThisExpression"
  | .arrayExpression => "ArrayExpression"
  | .objectExpression => "ObjectExpression"
  | .spreadElement => "SpreadElement"
  | .unaryExpression => "UnaryExpression"
  | .updateExpression => "UpdateExpression"
  | .binaryExpression => "BinaryExpression"
  | .functionExpression => "FunctionExpression"
  | .classExpression => "ClassExpression"
  | .assignmentExpression => "AssignmentExpression"
  | .memberExpression => "MemberExpression"
  | .superPropExpression => "SuperPropExpression"
  | .conditionalExpression => "ConditionalExpression"
  | .callExpression => "CallExpression"
  | .newExpression => "NewExpression"
  | .sequenceExpression => "SequenceExpression"
  | .arrowFunctionExpression => "ArrowFunctionExpression"
  | .yieldExpression => "YieldExpression"
  | .metaProperty => "MetaProperty"
  | .awaitExpression => "AwaitExpression"
  | .templateLiteral => "TemplateLiteral"
  | .taggedTemplateExpression => "TaggedTemplateExpression"
  | .templateElement => "TemplateElement"
  | .parenthesisExpression => "ParenthesisExpression"
  | .superReference => "Super"
  | .importCallee => "Import"
  | .entry => ""
  | .optionalChainingExpression => "OptionalChainingExpression"
  | .optionalCall => "CallExpression"
  | .keyValueProperty => "KeyValueProperty"
  | .assignmentProperty => "AssignmentProperty"
  | .getterProperty => "GetterProperty"
  | .setterProperty => "SetterProperty"
  | .methodProperty => "MethodProperty"
  | .computed => "Computed"
  | .bigIntLiteral => "BigIntLiteral"
  | .stringLiteral => "StringLiteral"
  | .booleanLiteral => "BooleanLiteral"
  | .nullLiteral => "NullLiteral"
  | .regExpLiteral => "RegExpLiteral"
  | .numericLiteral => "NumericLiteral"
  | .jsxMemberExpression => "JSXMemberExpression"
  | .jsxNamespacedName => "JSXNamespacedName"
  | .jsxEmptyExpression => "JSXEmptyExpression"
  | .jsxExpressionContainer => "JSXExpressionContainer"
  | .jsxSpreadChild => "JSXSpreadChild"
  | .jsxOpeningElement => "JSXOpeningElement"
  | .jsxClosingElement => "JSXClosingElement"
  | .jsxAttribute => "JSXAttribute"
  | .jsxText => "JSXText"
  | .jsxElement => "JSXElement"
  | .jsxFragment => "JSXFragment"
  | .jsxOpeningFragment => "JSXOpeningFragment"
  | .jsxClosingFragment => "JSXClosingFragment"
  | .privateName => "PrivateName"
  | .arrayPattern => "ArrayPattern"
  | .objectPattern => "ObjectPattern"
  | .assignmentPattern => "AssignmentPattern"
  | .restElement => "RestElement"
  | .keyValuePatternProperty => "KeyValuePatternProperty"
  | .assignmentPatternProperty => "AssignmentPatternProperty"
  | .tsTypeAnnot => "TsTypeAnnotation"
  | .tsTypeParameterDeclaration => "TsTypeParameterDeclaration"
  | .tsTypeParameter => "TsTypeParameter"
  | .tsTypeParameterInstantiation => "TsTypeParameterInstantiation"
  | .tsParameterProperty => "TsParameterProperty"
  | .tsQualifiedName => "TsQualifiedName"
  | .tsCallSignatureDeclaration => "TsCallSignatureDeclaration"
  | .tsConstructSignatureDeclaration => "TsConstructSignatureDeclaration"
  | .tsPropertySignature => "TsPropertySignature"
  | .tsGetterSignature => "TsGetterSignature"
  | .tsSetterSignature => "TsSetterSignature"
  | .tsMethodSignature => "TsMethodSignature"
  | .tsIndexSignature => "TsIndexSignature"
  | .tsKeywordType => "TsKeywordType"
  | .tsThisType => "TsThisType"
  | .tsFunctionType => "TsFunctionType"
  | .tsConstructorType => "TsConstructorType"
  | .tsTypeReference => "TsTypeReference"
  | .tsTypePredicate => "TsTypePredicate"
  | .tsTypeQuery => "TsTypeQuery"
  | .tsImportType => "TsImportType"
  | .tsTypeLiteral => "TsTypeLiteral"
  | .tsArrayType => "TsArrayType"
  | .tsTupleType => "TsTupleType"
  | .tsTupleElement => "TsTupleElement"
  | .tsOptionalType => "TsOptionalType"
  | .tsRestType => "TsRestType"
  | .tsUnionType => "TsUnionType"
  | .tsIntersectionType => "TsIntersectionType"
  | .tsConditionalType => "TsConditionalType"
  | .tsInferType => "TsInferType"
  | .tsParenthesizedType => "TsParenthesizedType"
  | .tsTypeOperator => "TsTypeOperator"
  | .tsIndexedAccessType => "TsIndexedAccessType"
  | .tsMappedType => "TsMappedType"
  | .tsLiteralType => "TsLiteralType"
  | .templateLiteralType => "TemplateLiteral"
  | .tsInterfaceDeclaration => "TsInterfaceDeclaration"
  | .tsInterfaceBody => "TsInterfaceBody"
  | .tsExpressionWithTypeArguments => "TsExpressionWithTypeArguments"
  | .tsTypeAliasDeclaration => "TsTypeAliasDeclaration"
  | .tsEnumDeclaration => "TsEnumDeclaration"
  | .tsEnumMember => "TsEnumMember"
  | .tsModuleDeclaration => "TsModuleDeclaration"
  | .tsModuleBlock => "TsModuleBlock"
  | .tsNamespaceDeclaration => "TsNamespaceDeclaration"
  | .tsImportEqualsDeclaration => "TsImportEqualsDeclaration"
  | .tsExternalModuleReference => "TsExternalModuleReference"
  | .tsExportAssignment => "TsExportAssignment"
  | .tsNamespaceExportDeclaration => "TsNamespaceExportDeclaration"
  | .tsAsExpression => "TsAsExpression"
  | .tsTypeAssertion => "TsTypeAssertion"
  | .tsNonNullExpression => "TsNonNullExpression"
  | .tsSatisfiesExpression => "TsSatisfiesExpression"
  | .tsConstAssertion => "TsConstAssertion"
  | .tsInstantiation => "TsInstantiation"

-- The form that a name stands for, by the first form of that name.
def ofTypeName? (name : String) : Option Kind :=
  all.find? (·.typeName == name)

-- The forms that denote a type. An annotation is not one of them, but holds one.
def isType : Kind → Bool
  | .tsKeywordType | .tsThisType | .tsFunctionType | .tsConstructorType | .tsTypeReference
  | .tsTypePredicate | .tsTypeQuery | .tsImportType | .tsTypeLiteral | .tsArrayType
  | .tsTupleType | .tsOptionalType | .tsRestType | .tsUnionType | .tsIntersectionType
  | .tsConditionalType | .tsInferType | .tsParenthesizedType | .tsTypeOperator
  | .tsIndexedAccessType | .tsMappedType | .tsLiteralType => true
  | _ => false

end Kind

namespace Field

-- The name of a place in the interchange form of trees.
def text : Field → String
  | .alternate => "alternate"
  | .argument => "argument"
  | .arguments => "arguments"
  | .attributes => "attributes"
  | .base => "base"
  | .block => "block"
  | .body => "body"
  | .callee => "callee"
  | .cases => "cases"
  | .checkType => "checkType"
  | .children => "children"
  | .closing => "closing"
  | .consequent => "consequent"
  | .constraint => "constraint"
  | .decl => "decl"
  | .declaration => "declaration"
  | .declarations => "declarations"
  | .decls => "decls"
  | .decorators => "decorators"
  | .defaultType => "default"
  | .discriminant => "discriminant"
  | .elemType => "elemType"
  | .elemTypes => "elemTypes"
  | .elements => "elements"
  | .exported => "exported"
  | .exprName => "exprName"
  | .expression => "expression"
  | .expressions => "expressions"
  | .extended => "extends"
  | .extendsType => "extendsType"
  | .falseType => "falseType"
  | .finalizer => "finalizer"
  | .handler => "handler"
  | .id => "id"
  | .identifier => "identifier"
  | .implemented => "implements"
  | .imported => "imported"
  | .indexType => "indexType"
  | .init => "init"
  | .key => "key"
  | .label => "label"
  | .left => "left"
  | .literal => "literal"
  | .localName => "local"
  | .members => "members"
  | .moduleRef => "moduleRef"
  | .name => "name"
  | .nameType => "nameType"
  | .space => "namespace"
  | .obj => "obj"
  | .object => "object"
  | .objectType => "objectType"
  | .opening => "opening"
  | .orig => "orig"
  | .param => "param"
  | .paramName => "paramName"
  | .parameters => "parameters"
  | .params => "params"
  | .pat => "pat"
  | .properties => "properties"
  | .property => "property"
  | .qualifier => "qualifier"
  | .quasis => "quasis"
  | .returnType => "returnType"
  | .right => "right"
  | .source => "source"
  | .specifiers => "specifiers"
  | .stmts => "stmts"
  | .superClass => "superClass"
  | .superTypeParams => "superTypeParams"
  | .tag => "tag"
  | .template => "template"
  | .test => "test"
  | .thisParam => "thisParam"
  | .trueType => "trueType"
  | .ty => "ty"
  | .typeAnn => "typeAnn"
  | .annot => "typeAnnotation"
  | .typeArguments => "typeArguments"
  | .typeName => "typeName"
  | .typeParam => "typeParam"
  | .typeParameters => "typeParameters"
  | .typeParams => "typeParams"
  | .types => "types"
  | .update => "update"
  | .value => "value"
  | .withClause => "with"

end Field

end RenderMemo
