import RenderMemo.Tree.Kind

namespace RenderMemo

-- How many parts a place holds.
inductive Arity where
  | one
  | optional
  | list
  | optionalList
deriving DecidableEq, Repr

namespace Kind

-- The places of a form in the order in which they are visited. A method's places are its key and the
-- places of its function.
def places : Kind → List (Field × Arity)
  | .exportDefaultExpression | .expressionStatement | .decorator | .parenthesisExpression
  | .entry | .computed | .jsxExpressionContainer | .jsxSpreadChild | .tsExternalModuleReference
  | .tsExportAssignment | .tsNonNullExpression | .tsConstAssertion => [(.expression, .one)]
  | .exportDeclaration => [(.declaration, .one)]
  | .importDeclaration => [(.specifiers, .list), (.source, .one), (.withClause, .optional)]
  | .exportAllDeclaration => [(.source, .one), (.withClause, .optional)]
  | .exportNamedDeclaration =>
      [(.specifiers, .list), (.source, .optional), (.withClause, .optional)]
  | .exportDefaultDeclaration => [(.decl, .one)]
  | .importDefaultSpecifier | .importNamespaceSpecifier => [(.localName, .one)]
  | .importSpecifier => [(.localName, .one), (.imported, .optional)]
  | .exportNamespaceSpecifier | .jsxClosingElement => [(.name, .one)]
  | .exportDefaultSpecifier => [(.exported, .one)]
  | .exportSpecifier => [(.orig, .one), (.exported, .optional)]
  | .functionDeclaration =>
      [(.identifier, .one), (.params, .list), (.decorators, .list), (.body, .optional),
      (.typeParameters, .optional), (.returnType, .optional)]
  | .classDeclaration =>
      [(.identifier, .one), (.decorators, .list), (.body, .list), (.superClass, .optional),
      (.typeParams, .optional), (.superTypeParams, .optional), (.implemented, .list)]
  | .variableDeclaration => [(.declarations, .list)]
  | .variableDeclarator | .tsEnumMember => [(.id, .one), (.init, .optional)]
  | .usingDeclaration => [(.decls, .list)]
  | .blockStatement => [(.stmts, .list)]
  | .withStatement => [(.object, .one), (.body, .one)]
  | .returnStatement | .yieldExpression => [(.argument, .optional)]
  | .labeledStatement => [(.label, .one), (.body, .one)]
  | .breakStatement | .continueStatement => [(.label, .optional)]
  | .ifStatement => [(.test, .one), (.consequent, .one), (.alternate, .optional)]
  | .switchStatement => [(.discriminant, .one), (.cases, .list)]
  | .throwStatement | .unaryExpression | .updateExpression | .awaitExpression =>
      [(.argument, .one)]
  | .tryStatement => [(.block, .one), (.handler, .optional), (.finalizer, .optional)]
  | .whileStatement | .doWhileStatement => [(.test, .one), (.body, .one)]
  | .forStatement => [(.init, .optional), (.test, .optional), (.update, .optional), (.body, .one)]
  | .forInStatement | .forOfStatement => [(.left, .one), (.right, .one), (.body, .one)]
  | .switchCase => [(.test, .optional), (.consequent, .list)]
  | .catchClause => [(.param, .optional), (.body, .one)]
  | .classProperty | .privateProperty | .autoAccessor =>
      [(.key, .one), (.value, .optional), (.annot, .optional), (.decorators, .list)]
  | .classMethod | .privateMethod | .methodProperty =>
      [(.key, .one), (.params, .list), (.decorators, .list), (.body, .optional),
      (.typeParameters, .optional), (.returnType, .optional)]
  | .classConstructor => [(.key, .one), (.params, .list), (.body, .optional)]
  | .staticBlock => [(.body, .one)]
  | .parameter => [(.decorators, .list), (.pat, .one)]
  | .arrayExpression => [(.elements, .list)]
  | .objectExpression => [(.properties, .list)]
  | .spreadElement => [(.arguments, .one)]
  | .binaryExpression | .assignmentExpression | .assignmentPattern | .tsQualifiedName =>
      [(.left, .one), (.right, .one)]
  | .functionExpression =>
      [(.identifier, .optional), (.params, .list), (.decorators, .list), (.body, .optional),
      (.typeParameters, .optional), (.returnType, .optional)]
  | .classExpression =>
      [(.identifier, .optional), (.decorators, .list), (.body, .list), (.superClass, .optional),
      (.typeParams, .optional), (.superTypeParams, .optional), (.implemented, .list)]
  | .memberExpression | .jsxMemberExpression => [(.object, .one), (.property, .one)]
  | .superPropExpression => [(.obj, .one), (.property, .one)]
  | .conditionalExpression => [(.test, .one), (.consequent, .one), (.alternate, .one)]
  | .callExpression | .optionalCall =>
      [(.callee, .one), (.arguments, .list), (.typeArguments, .optional)]
  | .newExpression => [(.callee, .one), (.arguments, .optionalList), (.typeArguments, .optional)]
  | .sequenceExpression => [(.expressions, .list)]
  | .arrowFunctionExpression =>
      [(.params, .list), (.body, .one), (.typeParameters, .optional), (.returnType, .optional)]
  | .templateLiteral => [(.expressions, .list), (.quasis, .list)]
  | .taggedTemplateExpression => [(.tag, .one), (.typeParameters, .optional), (.template, .one)]
  | .optionalChainingExpression => [(.base, .one)]
  | .keyValueProperty | .assignmentProperty | .keyValuePatternProperty =>
      [(.key, .one), (.value, .one)]
  | .getterProperty => [(.key, .one), (.annot, .optional), (.body, .optional)]
  | .setterProperty => [(.key, .one), (.thisParam, .optional), (.param, .one), (.body, .optional)]
  | .jsxNamespacedName => [(.space, .one), (.name, .one)]
  | .jsxOpeningElement => [(.name, .one), (.attributes, .list), (.typeArguments, .optional)]
  | .jsxAttribute => [(.name, .one), (.value, .optional)]
  | .jsxElement => [(.opening, .one), (.children, .list), (.closing, .optional)]
  | .jsxFragment => [(.opening, .one), (.children, .list), (.closing, .one)]
  | .arrayPattern => [(.elements, .list), (.annot, .optional)]
  | .objectPattern => [(.properties, .list), (.annot, .optional)]
  | .restElement => [(.argument, .one), (.annot, .optional)]
  | .assignmentPatternProperty => [(.key, .one), (.value, .optional)]
  | .tsTypeAnnot | .tsOptionalType | .tsRestType | .tsParenthesizedType | .tsTypeOperator =>
      [(.annot, .one)]
  | .tsTypeParameterDeclaration => [(.parameters, .list)]
  | .tsTypeParameter => [(.name, .one), (.constraint, .optional), (.defaultType, .optional)]
  | .tsTypeParameterInstantiation => [(.params, .list)]
  | .tsParameterProperty => [(.decorators, .list), (.param, .one)]
  | .tsCallSignatureDeclaration | .tsConstructSignatureDeclaration =>
      [(.params, .list), (.annot, .optional), (.typeParams, .optional)]
  | .tsPropertySignature | .tsGetterSignature => [(.key, .one), (.annot, .optional)]
  | .tsSetterSignature => [(.key, .one), (.param, .one)]
  | .tsMethodSignature =>
      [(.key, .one), (.params, .list), (.typeAnn, .optional), (.typeParams, .optional)]
  | .tsIndexSignature => [(.params, .list), (.annot, .optional)]
  | .tsFunctionType | .tsConstructorType =>
      [(.params, .list), (.typeParams, .optional), (.annot, .one)]
  | .tsTypeReference => [(.typeName, .one), (.typeParams, .optional)]
  | .tsTypePredicate => [(.paramName, .one), (.annot, .optional)]
  | .tsTypeQuery => [(.exprName, .one), (.typeArguments, .optional)]
  | .tsImportType => [(.argument, .one), (.qualifier, .optional), (.typeArguments, .optional)]
  | .tsTypeLiteral => [(.members, .list)]
  | .tsArrayType => [(.elemType, .one)]
  | .tsTupleType => [(.elemTypes, .list)]
  | .tsTupleElement => [(.label, .optional), (.ty, .one)]
  | .tsUnionType | .tsIntersectionType => [(.types, .list)]
  | .tsConditionalType =>
      [(.checkType, .one), (.extendsType, .one), (.trueType, .one), (.falseType, .one)]
  | .tsInferType => [(.typeParam, .one)]
  | .tsIndexedAccessType => [(.objectType, .one), (.indexType, .one)]
  | .tsMappedType => [(.typeParam, .one), (.nameType, .optional), (.annot, .optional)]
  | .tsLiteralType => [(.literal, .one)]
  | .templateLiteralType => [(.types, .list), (.quasis, .list)]
  | .tsInterfaceDeclaration =>
      [(.id, .one), (.typeParams, .optional), (.extended, .list), (.body, .one)]
  | .tsInterfaceBody | .tsModuleBlock => [(.body, .list)]
  | .tsExpressionWithTypeArguments => [(.expression, .one), (.typeArguments, .optional)]
  | .tsTypeAliasDeclaration => [(.id, .one), (.typeParams, .optional), (.annot, .one)]
  | .tsEnumDeclaration => [(.id, .one), (.members, .list)]
  | .tsModuleDeclaration => [(.id, .one), (.body, .optional)]
  | .tsNamespaceDeclaration => [(.id, .one), (.body, .one)]
  | .tsImportEqualsDeclaration => [(.id, .one), (.moduleRef, .one)]
  | .tsNamespaceExportDeclaration => [(.id, .one)]
  | .tsAsExpression | .tsTypeAssertion | .tsSatisfiesExpression =>
      [(.expression, .one), (.annot, .one)]
  | .tsInstantiation => [(.expression, .one), (.typeArguments, .one)]
  | _ => []

end Kind

end RenderMemo
